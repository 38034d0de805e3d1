import WvStreams.Strings.Integer

/-!
# Configuration files

A `WvConf` is a list of sections, and a section is a list of entries. `save` writes them as they
are, and `load_file` finds sections, names and values by `[`, `]` and `=` alone.
-/

namespace WvStreams

/-- `strcasecmp` is zero. -/
def strcaseeq (s t : Str) : Bool := s.map tolower == t.map tolower

structure WvConfigEntry where
  name : Str
  value : Str
  deriving DecidableEq

structure WvConfigSection where
  name : Str
  entries : List WvConfigEntry := []
  deriving DecidableEq

namespace WvConfigSection

def entry? (s : WvConfigSection) (ename : Str) : Option WvConfigEntry :=
  s.entries.find? fun e => strcaseeq e.name ename

def get (s : WvConfigSection) (entry : Str) (def_val : WvString := none) : WvString :=
  match s.entry? entry with
  | some e => some e.value
  | none => def_val

/-- Add an entry to the end of the section, assuming that no duplicates exist. -/
def quick_set (s : WvConfigSection) (entry value : Str) : WvConfigSection :=
  { s with entries := s.entries ++ [⟨trimEnd entry, value⟩] }

def set (s : WvConfigSection) (entry value : Str) : WvConfigSection :=
  -- what `trim_string` returns is not used, so blanks in front stay
  let clean_entry := trimEnd entry
  let found := fun e : WvConfigEntry => strcaseeq e.name clean_entry
  if value = [] then { s with entries := s.entries.eraseP found }
  else if (s.entry? clean_entry).isSome then
    { s with entries := s.entries.modify (s.entries.findIdx found) fun e => { e with value } }
  else s.quick_set entry value

def dump (s : WvConfigSection) : Str :=
  s.entries.flatMap fun e =>
    if e.value ≠ [] then e.name ++ bytes " = " ++ e.value ++ bytes "\n"
    else e.name ++ bytes " =\n"

end WvConfigSection

structure WvConf where
  sections : List WvConfigSection := []
  globalsection : WvConfigSection := { name := [] }
  dirty : Bool := false
  error : Bool := false
  deriving DecidableEq

namespace WvConf

def section? (c : WvConf) (section_name : Str) : Option WvConfigSection :=
  c.sections.find? fun s => strcaseeq s.name section_name

def unseen (c : WvConf) (cache : List Str) : List WvConfigSection :=
  c.sections.filter fun s => !cache.contains s.name

theorem unseen_lt {c : WvConf} {section_name : Str} {s : WvConfigSection} {cache : List Str}
    (hs : c.section? section_name = some s) (hcache : ¬ cache.contains s.name = true) :
    (c.unseen (s.name :: cache)).length < (c.unseen cache).length := by
  have hmem : s ∈ c.unseen cache := by
    rw [unseen, List.mem_filter, Bool.not_eq_true']
    exact ⟨List.mem_of_find?_eq_some hs, Bool.eq_false_iff.mpr hcache⟩
  have hfilter : c.unseen (s.name :: cache) =
      (c.unseen cache).filter fun t => decide (t.name ≠ s.name) := by
    rw [unseen, unseen, List.filter_filter]
    apply List.filter_congr
    intro t _
    simp
  rw [hfilter]
  exact List.length_filter_lt_length_iff_exists.mpr ⟨s, hmem, by simp⟩

def get_inherited (c : WvConf) (entry : Str) (cache : List Str) (section_name : Str) : WvString :=
  match _ : c.section? section_name with
  | none => none
  | some s =>
    if _ : cache.contains s.name then none
    else
      match s.get entry with
      | some ret => some ret
      | none =>
        match s.entry? (bytes "Inherits") with
        | some inherits => c.get_inherited entry (s.name :: cache) inherits.value
        | none => none
termination_by (c.unseen cache).length
decreasing_by exact unseen_lt ‹_› ‹_›

def get (c : WvConf) (section_name entry : Str) (def_val : WvString := none) : WvString :=
  match c.get_inherited entry [] section_name with
  | some ret => some ret
  | none => c.globalsection.get entry def_val

/-- A null `value` is an empty one. -/
def set (c : WvConf) (section_name entry : Str) (value : WvString) : WvConf :=
  let value := value.getD []
  match c.section? section_name with
  | none =>
    if value = [] then c
    else
      { c with sections := c.sections ++ [WvConfigSection.set ⟨section_name, []⟩ entry value],
               dirty := true }
  | some s =>
    if (s.get entry (some [])).getD [] ≠ value then
      { c with
        sections := c.sections.modify (c.sections.findIdx fun s => strcaseeq s.name section_name)
          fun s => s.set entry value
        dirty := true }
    else c

def setint (c : WvConf) (section_name entry : Str) (value : IntType.int.Value) : WvConf :=
  c.set section_name entry (some (WvFastString.ofInt .int value))

/-- Only set the value if it isn't already in the config file. -/
def maybeset (c : WvConf) (section_name entry : Str) (value : WvString) : WvConf :=
  if value ≠ none ∧ c.get section_name entry = none then c.set section_name entry value else c

def delete_section (c : WvConf) (section_name : Str) : WvConf :=
  match c.section? section_name with
  | none => c
  | some _ =>
    { c with
      sections := c.sections.eraseP fun s => strcaseeq s.name section_name
      dirty := true }

def check_for_bool_string (s : Str) : Int :=
  if strcaseeq s (bytes "off") || strcaseeq s (bytes "false") || strncasecmp s (bytes "no") 2 then 0
  else if strcaseeq s (bytes "on") || strcaseeq s (bytes "true") || strcaseeq s (bytes "yes") then 1
  else atoi s

def getint (c : WvConf) (section_name entry : Str) (def_val : IntType.int.Value) : Int :=
  let def_str := WvFastString.ofInt .int def_val
  -- the default is not null, and so the string is not
  check_for_bool_string ((c.get section_name entry (some def_str)).getD [])

/-- The inner loop of `fuzzy_get`, from the section with this name, and the cache afterwards. -/
def fuzzy_inherited (c : WvConf) (entry : Str) (cache : List Str) (section_name : Str) :
    WvString × List Str :=
  match _ : c.section? section_name with
  | none => (none, cache)
  | some s =>
    if _ : cache.contains s.name then (none, cache)
    else
      match s.get entry with
      | some ret => (some ret, cache)
      | none =>
        match s.entry? (bytes "Inherits") with
        | some inherits => c.fuzzy_inherited entry (s.name :: cache) inherits.value
        | none => (none, s.name :: cache)
termination_by (c.unseen cache).length
decreasing_by exact unseen_lt ‹_› ‹_›

def fuzzy_sections (c : WvConf) (entry : Str) (cache : List Str) : List Str → WvString
  | [] => none
  | i :: sections =>
    match c.fuzzy_inherited entry cache i with
    | (some ret, _) => some ret
    | (none, cache) => c.fuzzy_sections entry cache sections

/-- `fuzzy_get` for one entry. -/
def fuzzy_get (c : WvConf) (sections : List Str) (entry : Str) (def_val : WvString := none) :
    WvString :=
  match c.fuzzy_sections entry [] sections with
  | some ret => some ret
  | none => def_val

/-- What `save` writes; none if there has been an error. -/
def save (c : WvConf) : Option Str :=
  if c.error then none
  else
    some (c.globalsection.dump ++ c.sections.flatMap fun sect =>
      bytes "\n[" ++ sect.name ++ bytes "]\n" ++ sect.dump)

/-- What `getline` returns one after the other. A line is a C string. -/
def getlines : Str → List Str
  | [] => []
  | c :: s =>
    if c = 10 then [] :: getlines s
    else
      match getlines s with
      | [] => [[c]]
      | line :: lines => (c :: line) :: lines

def parse_section (s : Str) : Option Str :=
  match s with
  | 91 :: name =>
    if name.dropWhile (· != 93) = [93] then some (trimString (name.takeWhile (· != 93))) else none
  | _ => none

def parse_value (s : Str) : Str × WvString :=
  if 61 ∈ s then
    (s.takeWhile (· != 61), some (trimString ((s.dropWhile (· != 61)).drop 1)))
  else (s, none)

/-- A file that is being loaded: the current section is the global one, or that at an index. -/
structure Loading where
  conf : WvConf
  sect : Option Nat := none
  quick_mode : Bool := false

namespace Loading

/-- `set` or `quick_set` of the current section. -/
def set (l : Loading) (entry value : Str) : Loading :=
  let set := fun s : WvConfigSection =>
    if l.quick_mode then s.quick_set entry value else s.set entry value
  match l.sect with
  | none => { l with conf := { l.conf with globalsection := set l.conf.globalsection } }
  | some i => { l with conf := { l.conf with sections := l.conf.sections.modify i set } }

def line (l : Loading) (from_file : Str) : Loading :=
  let from_file := trimString (from_file.takeWhile (· != 0))
  match parse_section from_file with
  | some p =>
    if p = [] then { l with sect := none, quick_mode := false }
    else
      match l.conf.sections.findIdx? fun s => strcaseeq s.name p with
      | some i => { l with sect := some i, quick_mode := false }
      | none =>
        { conf := { l.conf with sections := l.conf.sections ++ [⟨p, []⟩] }
          sect := some l.conf.sections.length
          quick_mode := true }
  | none =>
    let (from_file, p) := parse_value from_file
    let from_file := trimString from_file
    if from_file = [] then l else l.set from_file (p.getD [])

end Loading

def load_file (c : WvConf) (file : Str) : WvConf :=
  ((getlines file).foldl Loading.line { conf := c }).conf

end WvConf

end WvStreams
