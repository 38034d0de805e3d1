import WvStreams.ConfigFile.WvConf
import WvStreams.UniConf.Str2Int
import WvStreams.UniConf.TempGen

/-!
# `WvConfEmu`

The interface of a `WvConf` over a UniConf tree. A section and its entries are objects that are
made when they are asked for the first time, and kept. The texts that `get` returns are kept, too,
but no one sees that.
-/

namespace WvStreams

open Lib List UniConfKey

namespace UniConfKey

def numsegments (key : UniConfKey) : Nat := key.length

def handle (fullkey : UniConfKey) (key : Str) : UniConfKey := concat fullkey (ofString key)

/-- A name that is one segment as it is. -/
structure Single (name : Str) : Prop where
  ne : name ≠ []
  slash : slash ∉ name

/-- A name that is the segment, whatever slashes are in front of it. -/
structure Spells (name : Str) (t : Segment) : Prop where
  ofString_eq : ofString name = [t]
  single : Single t

instance (name : Str) : Decidable (Single name) :=
  decidable_of_iff (name ≠ [] ∧ slash ∉ name) ⟨fun h => ⟨h.1, h.2⟩, fun h => ⟨h.ne, h.slash⟩⟩

theorem slash_of_fold {s t : Segment} (h : fold s = fold t) (hs : slash ∈ s) : slash ∈ t := by
  have hslash : ∀ c : Byte, tolower c = slash → c = slash := by
    intro c hc
    rw [tolower] at hc
    split at hc
    · rename_i hupper
      have hsum : (c + 32).toNat = 47 := congrArg UInt8.toNat hc
      simp only [UInt8.le_iff_toNat_le, UInt8.toNat_add, UInt8.reduceToNat] at hupper hsum
      omega
    · exact hc
  have hmem : slash ∈ t.map tolower := by
    have hmap : s.map tolower = t.map tolower := h
    rw [← hmap]
    exact mem_map_of_mem hs
  obtain ⟨c, hc, heq⟩ := mem_map.mp hmem
  exact hslash c heq ▸ hc

variable {name : Str}

theorem exists_spells (h : (ofString name).numsegments = 1) : ∃ t, Spells name t := by
  obtain ⟨t, ht⟩ := length_eq_one_iff.mp h
  have hsegment : t ∈ (name.splitOn slash).filter (· ≠ []) := by
    have hsplit := ht
    rw [ofString] at hsplit
    split at hsplit
    · rename_i hslash
      -- a trailing slash makes another segment
      have hlen := congrArg length hsplit
      rw [length_append] at hlen
      exact absurd (length_eq_zero_iff.mp (Nat.succ_injective hlen)) hslash.2
    · rw [hsplit]
      exact mem_singleton_self t
  obtain ⟨hmem, hne⟩ := mem_filter.mp hsegment
  exact ⟨t, ht, by simpa using hne, slash_notMem_splitOn name t hmem⟩

theorem Spells.numsegments {t : Segment} (h : Spells name t) : (ofString name).numsegments = 1 := by
  rw [h.ofString_eq]
  rfl

theorem Single.spells (h : Single name) : Spells name name := by
  have hsliced : Sliced [name] := by
    intro s hs
    obtain rfl := mem_singleton.mp hs
    exact ⟨h.ne, h.slash⟩
  have hprint : printable [name] = name := intercalate_singleton
  refine ⟨?_, h⟩
  rw [← ofString_printable hsliced, hprint]

theorem Spells.handle_eq {fullkey : UniConfKey} (hfull : fullkey.Plain) {t : Segment}
    (h : Spells name t) : handle fullkey name = fullkey ++ [t] := by
  rw [handle, h.ofString_eq, concat_name hfull h.single.ne]

end UniConfKey

namespace UniTempGen

def getme (g : UniTempGen) (fullkey : UniConfKey) (defvalue : WvString := none) : WvString :=
  match g.get fullkey with
  | some value => some value
  | none => defvalue

end UniTempGen

/-- A section has its place in the tree by its name. -/
structure WvConfigSectionEmu where
  name : Str
  entries : List WvConfigEntry := []
  deriving DecidableEq

namespace WvConfigSectionEmu

def fullkey (s : WvConfigSectionEmu) : UniConfKey := handle [] s.name

/-- `operator[]`: the entry that is kept has the value that is in the tree now. -/
def entry? (s : WvConfigSectionEmu) (uniconf : UniTempGen) (ename : Str) :
    Option WvConfigEntry × WvConfigSectionEmu :=
  let key := handle s.fullkey ename
  if uniconf.exists_ key then
    let value := (uniconf.getme key).getD []
    match s.entries.find? fun e => e.name == ename with
    | none => (some ⟨ename, value⟩, { s with entries := ⟨ename, value⟩ :: s.entries })
    | some e =>
      (some { e with value },
        { s with entries := s.entries.map fun f => if f.name = ename then { f with value } else f })
  else (none, s)

def get (s : WvConfigSectionEmu) (uniconf : UniTempGen) (entry : Str) (def_val : WvString := none) :
    WvString :=
  if entry = [] then def_val else uniconf.getme (handle s.fullkey entry) def_val

end WvConfigSectionEmu

structure WvConfEmu where
  uniconf : UniTempGen := .empty
  sections : List WvConfigSectionEmu := []
  dirty : Bool := false

namespace WvConfEmu

def key (section_name entry : Str) : UniConfKey :=
  handle (handle [] section_name) entry

def section? (c : WvConfEmu) (sect : Str) : Option WvConfigSectionEmu × WvConfEmu :=
  if (UniConfKey.ofString sect).numsegments ≠ 1 then (none, c)
  else
    match c.sections.find? fun s => s.name == sect with
    | some s => (some s, c)
    | none =>
      if c.uniconf.exists_ (handle [] sect) then
        (some ⟨sect, []⟩, { c with sections := ⟨sect, []⟩ :: c.sections })
      else (none, c)

def keep (c : WvConfEmu) (s : WvConfigSectionEmu) : WvConfEmu :=
  { c with sections := c.sections.map fun t => if t.name = s.name then s else t }

def get (c : WvConfEmu) (section_name entry : Str) (def_val : WvString := none) : WvString :=
  if section_name = [] ∨ entry = [] then def_val
  else c.uniconf.getme (key section_name entry) def_val

def getint (c : WvConfEmu) (section_name entry : Str) (def_val : IntType.int.Value) : Int :=
  if section_name = [] ∨ entry = [] then def_val
  else str2int (c.uniconf.getme (key section_name entry)) def_val

def set (c : WvConfEmu) (section_name entry : Str) (value : WvString) : WvConfEmu :=
  if entry = [] then c
  else
    let value := if value.getD [] ≠ [] then value else none
    { c with uniconf := (c.uniconf.set (key section_name entry) value).1, dirty := true }

def setint (c : WvConfEmu) (section_name entry : Str) (value : IntType.int.Value) : WvConfEmu :=
  if entry = [] then c
  else
    let value := some (WvFastString.ofInt .int value)
    { c with uniconf := (c.uniconf.set (key section_name entry) value).1 }

def maybeset (c : WvConfEmu) (section_name entry : Str) (value : WvString) : WvConfEmu :=
  if entry ≠ [] ∧ c.get section_name entry = none then c.set section_name entry value else c

def delete_section (c : WvConfEmu) (section_name : Str) : WvConfEmu :=
  { c with
    uniconf := (c.uniconf.set (handle [] section_name) none).1
    dirty := true }

/-- The values of the entries that a section can inherit by. -/
def inherits (uniconf : UniTempGen) : List Str :=
  (uniconf.iterator []).filterMap fun child => uniconf.get [child.1, bytes "Inherits"]

/-- The names that the search has not been at: the next one, and those it may come to. -/
def unseen (uniconf : UniTempGen) (cache : List Str) (sect : Str) : Finset Str :=
  insert sect (inherits uniconf).toFinset \ cache.toFinset

variable {sect : Str}

open UniConfKey

theorem key_eq {entry : Str} {t : Segment} (hsect : Spells sect t)
    (hentry : Single entry) : key sect entry = [t, entry] := by
  have hplain : Plain [t] :=
    plain_cons.mpr ⟨hsect.single.ne, plain_nil⟩
  rw [key, hsect.handle_eq plain_nil]
  exact hentry.spells.handle_eq hplain

open UniTempGen

theorem get_key (uniconf : UniTempGen) {entry : Str} {t : Segment}
    (hsect : Spells sect t) (hentry : Single entry) :
    uniconf.get (key sect entry) = uniconf.content [fold t, fold entry] := by
  have hplain : Plain [t, entry] := plain_cons.mpr
    ⟨hsect.single.ne, plain_cons.mpr ⟨hentry.ne, plain_nil⟩⟩
  rw [key_eq hsect hentry, get_of_plain _ hplain, hplain.path_eq]
  rfl

theorem mem_inherits {uniconf : UniTempGen} {value : Str} (hsect : (ofString sect).numsegments = 1)
    (hget : uniconf.get (key sect (bytes "Inherits")) = some value) : value ∈ inherits uniconf := by
  obtain ⟨t, ht⟩ := exists_spells hsect
  have hinherits : Single (bytes "Inherits") := by decide
  rw [get_key uniconf ht hinherits] at hget
  have hparent : uniconf.content [fold t] ≠ none := by
    intro hnone
    have hchild := uniconf.content_closed [fold t] [fold (bytes "Inherits")] hnone
    exact absurd (hget.symm.trans hchild) (Option.some_ne_none _)
  obtain ⟨v, hv⟩ := Option.ne_none_iff_exists'.mp hparent
  obtain ⟨name, hname, hmem⟩ := ((uniconf.lists_iterator []).mem (fold t) v).mpr hv
  have hplain : Plain [name, bytes "Inherits"] := plain_cons.mpr
    ⟨ne_nil_of_mem_iterator hmem, plain_cons.mpr ⟨hinherits.ne, plain_nil⟩⟩
  rw [inherits, mem_filterMap]
  refine ⟨(name, v), hmem, ?_⟩
  rw [get_of_plain _ hplain, hplain.path_eq, map_cons, hname]
  exact hget

theorem unseen_lt {uniconf : UniTempGen} {cache : List Str} {next : Str}
    (hsect : (ofString sect).numsegments = 1) (hcache : sect ∉ cache)
    (hget : uniconf.get (key sect (bytes "Inherits")) = some next) :
    (unseen uniconf (sect :: cache) next).card < (unseen uniconf cache sect).card := by
  apply Finset.card_lt_card
  rw [Finset.ssubset_iff_of_subset]
  · refine ⟨sect, ?_, ?_⟩
    · simp [unseen, hcache]
    · simp [unseen]
  · intro name hname
    have hnext := mem_inherits hsect hget
    simp only [unseen, Finset.mem_sdiff, Finset.mem_insert, mem_toFinset, mem_cons,
      not_or] at hname ⊢
    obtain ⟨rfl | hin, -, hnew⟩ := hname
    · exact ⟨Or.inr hnext, hnew⟩
    · exact ⟨Or.inr hin, hnew⟩

theorem section?_uniconf (c : WvConfEmu) (sect : Str) : (c.section? sect).2.uniconf = c.uniconf := by
  unfold section?
  split
  · rfl
  · split
    · rfl
    · split <;> rfl

theorem section?_some {c c' : WvConfEmu} {s : WvConfigSectionEmu}
    (h : c.section? sect = (some s, c')) : s.name = sect ∧ (ofString sect).numsegments = 1 := by
  unfold section? at h
  split at h
  · cases h
  · rename_i hone
    refine ⟨?_, not_not.mp hone⟩
    split at h
    · rename_i t ht
      cases h
      simpa using find?_some ht
    · split at h
      · cases h
        rfl
      · cases h

theorem section?_none {c c' : WvConfEmu} (h : c.section? sect = (none, c'))
    (hone : (ofString sect).numsegments = 1) : c.uniconf.get (handle [] sect) = none := by
  unfold section? at h
  rw [if_neg (not_not.mpr hone)] at h
  split at h
  · cases h
  · split at h
    · cases h
    · rename_i hno
      simpa [exists_] using hno

theorem entry?_value (s : WvConfigSectionEmu) (uniconf : UniTempGen) (ename : Str) :
    (s.entry? uniconf ename).1.map WvConfigEntry.value = uniconf.get (key s.name ename) := by
  unfold WvConfigSectionEmu.entry?
  show _ = uniconf.get (handle s.fullkey ename)
  cases hget : uniconf.get (handle s.fullkey ename) with
  | none => simp [exists_, hget]
  | some value =>
    simp only [exists_, getme, hget, Option.isSome_some, if_true, Option.getD_some]
    split <;> rfl

theorem unseen_next_lt {c c' : WvConfEmu} {cache : List Str} {s s' : WvConfigSectionEmu}
    {e : WvConfigEntry} (hs : c.section? sect = (some s, c'))
    (hcache : ¬ cache.contains s.name = true)
    (he : s.entry? c'.uniconf (bytes "Inherits") = (some e, s')) :
    (unseen (c'.keep s').uniconf (s.name :: cache) e.value).card <
      (unseen c.uniconf cache sect).card := by
  obtain ⟨rfl, hone⟩ := section?_some hs
  have hsame : c'.uniconf = c.uniconf := by rw [← section?_uniconf c s.name, hs]
  have hvalue := entry?_value s c'.uniconf (bytes "Inherits")
  rw [he, hsame] at hvalue
  show (unseen c'.uniconf (s.name :: cache) e.value).card < _
  rw [hsame]
  exact unseen_lt hone (by simpa using hcache) hvalue.symm

/-- The inner loop of `fuzzy_get`, from the section with this name: the value, and the cache and
the sections afterwards. -/
def fuzzy_inherited (c : WvConfEmu) (entry : Str) (cache : List Str) (sect : Str) :
    WvString × List Str × WvConfEmu :=
  match _ : c.section? sect with
  | (none, c') => (none, cache, c')
  | (some s, c') =>
    if _ : cache.contains s.name then (none, cache, c')
    else
      match s.get c'.uniconf entry with
      | some ret => (some ret, cache, c')
      | none =>
        match _ : s.entry? c'.uniconf (bytes "Inherits") with
        | (some inherits, s') =>
          (c'.keep s').fuzzy_inherited entry (s.name :: cache) inherits.value
        | (none, s') => (none, s.name :: cache, c'.keep s')
termination_by (unseen c.uniconf cache sect).card
decreasing_by exact unseen_next_lt ‹_› ‹_› ‹_›

def fuzzy_sections (c : WvConfEmu) (entry : Str) (cache : List Str) :
    List Str → WvString × WvConfEmu
  | [] => (none, c)
  | i :: sect =>
    match c.fuzzy_inherited entry cache i with
    | (some ret, _, c) => (some ret, c)
    | (none, cache, c) => c.fuzzy_sections entry cache sect

def fuzzy_get (c : WvConfEmu) (sect : List Str) (entry : Str) (def_val : WvString := none) :
    WvString × WvConfEmu :=
  match c.fuzzy_sections entry [] sect with
  | (some ret, c) => (some ret, c)
  | (none, c) => (def_val, c)

end WvConfEmu

end WvStreams
