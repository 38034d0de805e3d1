import WvStreams.ConfigFile.WvConf

/-!
# A saved configuration is loaded again

What `set` makes of a `WvConf` is such that every line that `save` writes is read back as what it
was written for, so that the sections and entries come back in their order (`load_file_save`).
-/

namespace WvStreams

open List Option

open WvConfigEntry

open WvConfigSection

/-- A text without blanks at its ends that is written on one line. -/
structure OneLine (s : Str) : Prop where
  trimmed : Trimmed s
  newline : 10 ∉ s
  nul : 0 ∉ s

structure EntryName (name : Str) : Prop where
  name_ne : name ≠ []
  name_line : OneLine name
  name_equals : 61 ∉ name
  name_bracket : name.head? ≠ some 91

instance (s : Str) : Decidable (OneLine s) :=
  decidable_of_iff
    (((∀ c ∈ s.head?, isspace c = false) ∧ ∀ c ∈ s.getLast?, isspace c = false) ∧ 10 ∉ s ∧ 0 ∉ s)
    ⟨fun h => ⟨⟨h.1.1, h.1.2⟩, h.2.1, h.2.2⟩,
      fun h => ⟨⟨h.trimmed.head, h.trimmed.last⟩, h.newline, h.nul⟩⟩

structure WvConfigEntry.Legible (e : WvConfigEntry) : Prop extends EntryName e.name where
  value_ne : e.value ≠ []
  value_line : OneLine e.value

structure WvConfigSection.Legible (s : WvConfigSection) : Prop where
  entries : ∀ e ∈ s.entries, e.Legible
  distinct : s.entries.Pairwise fun e f => strcaseeq e.name f.name = false

structure SectionName (name : Str) : Prop where
  name_ne : name ≠ []
  name_line : OneLine name
  name_bracket : 93 ∉ name

structure WvConf.Legible (c : WvConf) : Prop where
  global_name : c.globalsection.name = []
  global : c.globalsection.Legible
  names : ∀ s ∈ c.sections, SectionName s.name
  sections : ∀ s ∈ c.sections, s.Legible
  distinct : c.sections.Pairwise fun s t => strcaseeq s.name t.name = false

def WvConfigEntry.line (e : WvConfigEntry) : Str := e.name ++ bytes " = " ++ e.value

namespace WvConf

theorem getlines_append {line : Str} (h : 10 ∉ line) (rest : Str) :
    getlines (line ++ 10 :: rest) = line :: getlines rest := by
  induction line with
  | nil => rfl
  | cons c line ih =>
    rw [mem_cons, not_or] at h
    rw [cons_append, getlines, if_neg (Ne.symm h.1), ih h.2]

theorem getlines_dump {s : WvConfigSection} (h : s.Legible) (rest : Str) :
    getlines (s.dump ++ rest) = s.entries.map line ++ getlines rest := by
  obtain ⟨name, entries⟩ := s
  replace h : ∀ e ∈ entries, e.Legible := h.entries
  unfold dump
  induction entries with
  | nil => rfl
  | cons e entries ih =>
    have he := h e mem_cons_self
    have hline : 10 ∉ e.line := by
      unfold line
      simp only [mem_append, not_or]
      exact ⟨⟨he.name_line.newline, by decide⟩, he.value_line.newline⟩
    rw [flatMap_cons, if_pos he.value_ne, append_assoc, append_assoc]
    exact (getlines_append hline _).trans
      (congrArg (e.line :: ·) (ih fun f hf => h f (mem_cons_of_mem e hf)))

def section_lines (s : WvConfigSection) : List Str :=
  [] :: (91 :: s.name ++ [93]) :: s.entries.map WvConfigEntry.line

theorem getlines_sections {sections : List WvConfigSection}
    (hnames : ∀ s ∈ sections, SectionName s.name) (h : ∀ s ∈ sections, s.Legible) :
    getlines (sections.flatMap fun sect => bytes "\n[" ++ sect.name ++ bytes "]\n" ++ sect.dump) =
      sections.flatMap section_lines := by
  induction sections with
  | nil => rfl
  | cons s sections ih =>
    have hline : 10 ∉ (91 :: s.name ++ [93] : Str) := by
      have hname := (hnames s mem_cons_self).name_line.newline
      simpa using hname
    have hrest := ih (fun t ht => hnames t (mem_cons_of_mem s ht))
      fun t ht => h t (mem_cons_of_mem s ht)
    have hhead := getlines_append hline (s.dump ++ sections.flatMap fun sect =>
      bytes "\n[" ++ sect.name ++ bytes "]\n" ++ sect.dump)
    rw [getlines_dump (h s mem_cons_self), hrest] at hhead
    rw [flatMap_cons, flatMap_cons]
    have hbytes : bytes "\n[" ++ s.name ++ bytes "]\n" ++ s.dump ++
        (sections.flatMap fun sect => bytes "\n[" ++ sect.name ++ bytes "]\n" ++ sect.dump) =
        [] ++ 10 :: (91 :: s.name ++ [93] ++ 10 :: (s.dump ++ sections.flatMap fun sect =>
          bytes "\n[" ++ sect.name ++ bytes "]\n" ++ sect.dump)) := by
      have hopen : bytes "\n[" = [10, 91] := rfl
      have hend : bytes "]\n" = [93, 10] := rfl
      simp [hopen, hend]
    rw [hbytes, getlines_append not_mem_nil, hhead]
    rfl

theorem takeWhile_nul {line : Str} (h : 0 ∉ line) : line.takeWhile (· != 0) = line := by
  rw [takeWhile_eq_self_iff]
  intro c hc
  simpa using ne_of_mem_of_not_mem hc h

theorem span_stop {a : Str} {c : Byte} (h : c ∉ a) (b : Str) :
    (a ++ c :: b).takeWhile (· != c) = a ∧ (a ++ c :: b).dropWhile (· != c) = c :: b := by
  have hall : ∀ d ∈ a, (d != c) = true := fun d hd => by simpa using ne_of_mem_of_not_mem hd h
  rw [takeWhile_append_of_pos hall, dropWhile_append_of_pos hall]
  simp

theorem trimmed_append {a b : Str} (ha : Trimmed a) (hb : Trimmed b) (hane : a ≠ [])
    (hbne : b ≠ []) (middle : Str) : Trimmed (a ++ middle ++ b) := by
  constructor
  · intro c hc
    apply ha.head c
    rwa [append_assoc, head?_append_of_ne_nil _ hane] at hc
  · intro c hc
    apply hb.last c
    rwa [getLast?_append_of_ne_nil _ hbne] at hc

theorem line_blank (l : Loading) : l.line [] = l := rfl

variable {c : WvConf} {e : WvConfigEntry}

theorem line_entry (l : Loading) (h : e.Legible) : l.line e.line = l.set e.name e.value := by
  have hspaces : e.line = (e.name ++ [32]) ++ 61 :: 32 :: e.value := by
    have hbytes : bytes " = " = [32, 61, 32] := rfl
    simp [line, hbytes]
  have hnul : 0 ∉ e.line := by
    simpa [hspaces] using ⟨h.name_line.nul, h.value_line.nul⟩
  have htrimmed : Trimmed e.line :=
    trimmed_append h.name_line.trimmed h.value_line.trimmed h.name_ne h.value_ne _
  have hsection : parse_section e.line = none := by
    obtain ⟨c, name, hname⟩ := exists_cons_of_ne_nil h.name_ne
    have hne : c ≠ 91 := by
      rintro rfl
      exact h.name_bracket (by rw [hname]; rfl)
    rw [line, hname]
    unfold parse_section
    split
    · next heq => exact absurd (cons.inj heq).1 hne
    · rfl
  have hequals : 61 ∉ e.name ++ [32] := by simpa using h.name_equals
  have hvalue : parse_value e.line = (e.name ++ [32], some e.value) := by
    rw [parse_value, hspaces, if_pos (by simp), (span_stop hequals _).1, (span_stop hequals _).2,
      drop_one, tail_cons, h.value_line.trimmed.trimString_cons_space h.value_ne]
  unfold Loading.line
  simp only [takeWhile_nul hnul, htrimmed.trimString, hsection, hvalue,
    h.name_line.trimmed.trimString_space, if_neg h.name_ne, getD_some]

theorem line_section (l : Loading) {name : Str} (h : SectionName name)
    (hnew : ∀ s ∈ l.conf.sections, strcaseeq s.name name = false) :
    l.line (91 :: name ++ [93]) =
      { conf := { l.conf with sections := l.conf.sections ++ [⟨name, []⟩] }
        sect := some l.conf.sections.length
        quick_mode := true } := by
  have hnul : 0 ∉ (91 :: name ++ [93] : Str) := by simpa using h.name_line.nul
  have htrimmed : Trimmed (91 :: name ++ [93]) := by
    constructor
    · intro c hc
      obtain rfl : 91 = c := some.inj hc
      rfl
    · intro c hc
      rw [getLast?_concat] at hc
      obtain rfl : 93 = c := some.inj hc
      rfl
  have hsection : parse_section (91 :: name ++ [93]) = some name := by
    show (if (name ++ [93]).dropWhile _ = [93] then some (trimString ((name ++ [93]).takeWhile _))
      else none) = some name
    rw [(span_stop h.name_bracket []).1, (span_stop h.name_bracket []).2, if_pos rfl,
      h.name_line.trimmed.trimString]
  have hfind : (l.conf.sections.findIdx? fun s => strcaseeq s.name name) = none := by
    rw [findIdx?_eq_none_iff]
    exact hnew
  unfold Loading.line
  simp only [takeWhile_nul hnul, htrimmed.trimString, hsection, if_neg h.name_ne, hfind]

theorem modify_append {α : Type} (xs : List α) (x : α) (ys : List α) (f : α → α) :
    (xs ++ x :: ys).modify xs.length f = xs ++ f x :: ys := by
  induction xs with
  | nil => rfl
  | cons y xs ih => exact congrArg (y :: ·) ih

theorem quick_set_entry (s : WvConfigSection) (h : e.Legible) :
    s.quick_set e.name e.value = { s with entries := s.entries ++ [e] } := by
  rw [quick_set, trimEnd_eq_self h.name_line.trimmed.last]

theorem set_new (s : WvConfigSection) (h : e.Legible)
    (hnew : ∀ f ∈ s.entries, strcaseeq f.name e.name = false) :
    s.set e.name e.value = { s with entries := s.entries ++ [e] } := by
  have hnone : s.entry? e.name = none := by
    rw [WvConfigSection.entry?, find?_eq_none]
    intro f hf
    rw [hnew f hf]
    exact Bool.false_ne_true
  unfold WvConfigSection.set
  simp only [trimEnd_eq_self h.name_line.trimmed.last, if_neg h.value_ne, hnone, isSome_none,
    Bool.false_eq_true, if_false, quick_set_entry s h]

theorem foldl_global {entries : List WvConfigEntry} (c : WvConf) (old : List WvConfigEntry)
    (h : ∀ e ∈ entries, e.Legible)
    (hdistinct : (old ++ entries).Pairwise fun e f => strcaseeq e.name f.name = false) :
    (entries.map line).foldl Loading.line { conf := { c with globalsection := ⟨[], old⟩ } } =
      { conf := { c with globalsection := ⟨[], old ++ entries⟩ } } := by
  induction entries generalizing old with
  | nil => rw [append_nil, map_nil, foldl_nil]
  | cons e entries ih =>
    have he := h e mem_cons_self
    have hset : WvConfigSection.set ⟨[], old⟩ e.name e.value = ⟨[], old ++ [e]⟩ :=
      set_new ⟨[], old⟩ he fun f hf =>
        (pairwise_append.mp hdistinct).2.2 f hf e mem_cons_self
    rw [append_cons old] at hdistinct
    rw [map_cons, foldl_cons, line_entry _ he, append_cons old]
    unfold Loading.set
    simp only [Bool.false_eq_true, if_false, hset]
    exact ih (old ++ [e]) (fun f hf => h f (mem_cons_of_mem e hf)) hdistinct

theorem foldl_section {entries : List WvConfigEntry} (c : WvConf) (name : Str)
    (old : List WvConfigEntry) (h : ∀ e ∈ entries, e.Legible) :
    (entries.map line).foldl Loading.line
        { conf := { c with sections := c.sections ++ [⟨name, old⟩] }
          sect := some c.sections.length
          quick_mode := true } =
      { conf := { c with sections := c.sections ++ [⟨name, old ++ entries⟩] }
        sect := some c.sections.length
        quick_mode := true } := by
  induction entries generalizing old with
  | nil => rw [append_nil, map_nil, foldl_nil]
  | cons e entries ih =>
    have he := h e mem_cons_self
    rw [map_cons, foldl_cons, line_entry _ he, append_cons old]
    unfold Loading.set
    simp only [if_true, modify_append, quick_set_entry _ he]
    exact ih (old ++ [e]) fun f hf => h f (mem_cons_of_mem e hf)

theorem foldl_sections {sections : List WvConfigSection} (l : Loading)
    (hnames : ∀ s ∈ sections, SectionName s.name) (h : ∀ s ∈ sections, s.Legible)
    (hdistinct : (l.conf.sections ++ sections).Pairwise fun s t =>
      strcaseeq s.name t.name = false) :
    ((sections.flatMap section_lines).foldl Loading.line l).conf =
      { l.conf with sections := l.conf.sections ++ sections } := by
  induction sections generalizing l with
  | nil => rw [append_nil, flatMap_nil, foldl_nil]
  | cons s sections ih =>
    have hname := hnames s mem_cons_self
    have hnew : ∀ t ∈ l.conf.sections, strcaseeq t.name s.name = false := fun t ht =>
      (pairwise_append.mp hdistinct).2.2 t ht s mem_cons_self
    rw [append_cons l.conf.sections] at hdistinct ⊢
    rw [flatMap_cons, foldl_append, section_lines, foldl_cons, line_blank,
      foldl_cons, line_section l hname hnew,
      foldl_section l.conf s.name [] (h s mem_cons_self).entries, nil_append]
    exact ih _ (fun t ht => hnames t (mem_cons_of_mem s ht))
      (fun t ht => h t (mem_cons_of_mem s ht)) hdistinct

theorem load_file_save (h : c.Legible) (herror : c.error = false) :
    ∃ file, c.save = some file ∧
      load_file {} file = { sections := c.sections, globalsection := c.globalsection } := by
  refine ⟨_, if_neg (by rw [herror]; exact Bool.false_ne_true), ?_⟩
  have hname : c.globalsection = ⟨[], c.globalsection.entries⟩ := by
    rw [← h.global_name]
  have hglobal := foldl_global {} [] h.global.entries h.global.distinct
  have hsections := foldl_sections
    { conf := { globalsection := ⟨[], c.globalsection.entries⟩ } } h.names h.sections h.distinct
  rw [nil_append] at hglobal
  rw [load_file, getlines_dump h.global, getlines_sections h.names h.sections, foldl_append]
  exact (congrArg (fun l => (foldl Loading.line l _).conf) hglobal).trans
    (hsections.trans (by rw [hname]; rfl))

theorem modify_found {α : Type} (name : α → Str) (f : α → α) {P : α → Prop} {p : α → Bool}
    {l : List α} {x : α} (h : l.find? p = some x) (hall : ∀ a ∈ l, P a)
    (hdistinct : l.Pairwise fun a b => strcaseeq (name a) (name b) = false)
    (hnew : P (f x)) (hname : name (f x) = name x) :
    (∀ a ∈ l.modify (l.findIdx p) f, P a) ∧
      (l.modify (l.findIdx p) f).Pairwise fun a b => strcaseeq (name a) (name b) = false := by
  obtain ⟨hx, xs, ys, rfl, hxs⟩ := find?_eq_some_iff_append.mp h
  have hidx : (xs ++ x :: ys).findIdx p = xs.length := by
    rw [findIdx_append, if_neg, findIdx_cons, hx]
    · exact Nat.zero_add _
    · intro hlt
      obtain ⟨y, hy, hpy⟩ := findIdx_lt_length.mp hlt
      simpa [hpy] using hxs y hy
  rw [hidx, modify_append]
  rw [forall_mem_append, forall_mem_cons] at hall ⊢
  refine ⟨⟨hall.1, hnew, hall.2.2⟩, ?_⟩
  simpa only [pairwise_append, pairwise_cons, forall_mem_cons, hname] using hdistinct

theorem append_new {α : Type} (name : α → Str) {P : α → Prop} {l : List α} {x : α}
    (h : (l.find? fun a => strcaseeq (name a) (name x)) = none) (hall : ∀ a ∈ l, P a)
    (hdistinct : l.Pairwise fun a b => strcaseeq (name a) (name b) = false) (hnew : P x) :
    (∀ a ∈ l ++ [x], P a) ∧ (l ++ [x]).Pairwise fun a b => strcaseeq (name a) (name b) = false := by
  constructor
  · rw [forall_mem_append, forall_mem_singleton]
    exact ⟨hall, hnew⟩
  · rw [pairwise_append]
    refine ⟨hdistinct, pairwise_singleton _ _, fun a ha b hb => ?_⟩
    obtain rfl := mem_singleton.mp hb
    exact Bool.eq_false_iff.mpr (find?_eq_none.mp h a ha)

theorem legible_section_set {s : WvConfigSection} (h : s.Legible) {entry value : Str}
    (hentry : EntryName entry) (hvalue : OneLine value) : (s.set entry value).Legible := by
  unfold WvConfigSection.set
  simp only [trimEnd_eq_self hentry.name_line.trimmed.last]
  by_cases hempty : value = []
  · rw [if_pos hempty]
    exact ⟨fun e he => h.entries e (mem_of_mem_eraseP he), h.distinct.sublist eraseP_sublist⟩
  · rw [if_neg hempty]
    cases hfind : s.entry? entry with
    | some e =>
      have he : e.Legible := h.entries e (mem_of_find?_eq_some hfind)
      have hnew : WvConfigEntry.Legible { e with value } := ⟨he.toEntryName, hempty, hvalue⟩
      obtain ⟨hall, hdistinct⟩ := modify_found WvConfigEntry.name (fun e => { e with value }) hfind
        h.entries h.distinct hnew rfl
      exact ⟨hall, hdistinct⟩
    | none =>
      have hnew : WvConfigEntry.Legible ⟨entry, value⟩ := ⟨hentry, hempty, hvalue⟩
      have hquick : s.quick_set entry value = { s with entries := s.entries ++ [⟨entry, value⟩] } :=
        quick_set_entry s hnew
      rw [isSome_none, if_neg Bool.false_ne_true, hquick]
      obtain ⟨hall, hdistinct⟩ := append_new WvConfigEntry.name
        (show (s.entries.find? fun e => strcaseeq e.name (WvConfigEntry.mk entry value).name) = none
          from hfind) h.entries h.distinct hnew
      exact ⟨hall, hdistinct⟩

theorem section_set_name (s : WvConfigSection) (entry value : Str) :
    (s.set entry value).name = s.name := by
  unfold WvConfigSection.set WvConfigSection.quick_set
  simp only
  split_ifs <;> rfl

/-- What the arguments of `set` have to be for a file to hold them: a name or a value is on one
line and has no blanks at its ends, the names are not empty, and no name has what ends it. -/
structure Savable (section_name entry : Str) (value : WvString) : Prop where
  section_name : SectionName section_name
  entry : EntryName entry
  value : OneLine (value.getD [])

theorem legible_set (h : c.Legible) {section_name entry : Str} {value : WvString}
    (hset : Savable section_name entry value) : (c.set section_name entry value).Legible := by
  unfold set
  cases hfind : c.section? section_name with
  | none =>
    by_cases hempty : value.getD [] = []
    · simp only [if_pos hempty]
      exact h
    · simp only [if_neg hempty]
      have hnew : (WvConfigSection.set ⟨section_name, []⟩ entry (value.getD [])).Legible :=
        legible_section_set ⟨fun _ he => absurd he not_mem_nil, Pairwise.nil⟩
          hset.entry hset.value
      have hname := section_set_name ⟨section_name, []⟩ entry (value.getD [])
      obtain ⟨hall, hdistinct⟩ := append_new WvConfigSection.name
        (P := fun s => SectionName s.name ∧ s.Legible) (by rw [hname]; exact hfind)
        (fun s hs => ⟨h.names s hs, h.sections s hs⟩) h.distinct
        ⟨hname ▸ hset.section_name, hnew⟩
      exact ⟨h.global_name, h.global, fun s hs => (hall s hs).1, fun s hs => (hall s hs).2,
        hdistinct⟩
  | some s =>
    by_cases hchange : (s.get entry (some [])).getD [] ≠ value.getD []
    · simp only [if_pos hchange]
      have hs : s ∈ c.sections := mem_of_find?_eq_some hfind
      have hname := section_set_name s entry (value.getD [])
      obtain ⟨hall, hdistinct⟩ := modify_found WvConfigSection.name
        (fun s => s.set entry (value.getD [])) (P := fun s => SectionName s.name ∧ s.Legible) hfind
        (fun s hs => ⟨h.names s hs, h.sections s hs⟩) h.distinct
        ⟨hname ▸ h.names s hs, legible_section_set (h.sections s hs) hset.entry hset.value⟩ hname
      exact ⟨h.global_name, h.global, fun s hs => (hall s hs).1, fun s hs => (hall s hs).2,
        hdistinct⟩
    · simp only [if_neg hchange]
      exact h

def set_all (c : WvConf) (calls : List (Str × Str × WvString)) : WvConf :=
  calls.foldl (fun c call => c.set call.1 call.2.1 call.2.2) c

theorem legible_set_all (h : c.Legible) {calls : List (Str × Str × WvString)}
    (hcalls : ∀ call ∈ calls, Savable call.1 call.2.1 call.2.2) : (c.set_all calls).Legible := by
  induction calls generalizing c with
  | nil => exact h
  | cons call calls ih =>
    exact ih (legible_set h (hcalls call mem_cons_self))
      fun other hother => hcalls other (mem_cons_of_mem call hother)

theorem error_set (c : WvConf) (section_name entry : Str) (value : WvString) :
    (c.set section_name entry value).error = c.error := by
  unfold set
  split <;> simp only <;> split_ifs <;> rfl

theorem error_set_all (c : WvConf) (calls : List (Str × Str × WvString)) :
    (c.set_all calls).error = c.error := by
  induction calls generalizing c with
  | nil => rfl
  | cons call calls ih => exact (ih _).trans (error_set c call.1 call.2.1 call.2.2)

theorem get_inherited_eq (c : WvConf) (entry : Str) (cache : List Str) (section_name : Str) :
    c.get_inherited entry cache section_name = (c.section? section_name).bind fun s =>
      if cache.contains s.name then none
      else s.get entry <|> (s.entry? (bytes "Inherits")).bind fun inherits =>
        c.get_inherited entry (s.name :: cache) inherits.value := by
  rw [get_inherited]
  split
  · next hnone => rw [hnone, bind_none]
  · next s hs =>
    rw [hs, bind_some]
    split_ifs with hcache
    · rfl
    · cases s.get entry with
      | some ret => rfl
      | none => cases s.entry? (bytes "Inherits") <;> rfl

theorem get_inherited_congr {d : WvConf} (h : c.sections = d.sections) (entry : Str)
    (cache : List Str) (section_name : Str) :
    c.get_inherited entry cache section_name = d.get_inherited entry cache section_name := by
  have hsection : c.section? = d.section? := by
    unfold section?
    rw [h]
  induction cache, section_name using get_inherited.induct c entry with
  | case1 cache section_name hnone =>
    rw [get_inherited_eq, get_inherited_eq, ← hsection, hnone, bind_none, bind_none]
  | case2 cache section_name s hs hcache =>
    rw [get_inherited_eq, get_inherited_eq, ← hsection, hs, bind_some, bind_some,
      if_pos hcache, if_pos hcache]
  | case3 cache section_name s hs hcache ret hret =>
    rw [get_inherited_eq, get_inherited_eq, ← hsection, hs, bind_some, bind_some,
      if_neg hcache, if_neg hcache, hret]
    rfl
  | case4 cache section_name s hs hcache hnone inherits hinherits ih =>
    rw [get_inherited_eq, get_inherited_eq d, ← hsection, hs, bind_some, bind_some,
      if_neg hcache, if_neg hcache, hinherits, bind_some, bind_some, ih]
  | case5 cache section_name s hs hcache hnone hinherits =>
    rw [get_inherited_eq, get_inherited_eq, ← hsection, hs, bind_some, bind_some,
      if_neg hcache, if_neg hcache, hinherits, bind_none, bind_none]

theorem get_congr {d : WvConf} (h : c.sections = d.sections)
    (hglobal : c.globalsection = d.globalsection) (section_name entry : Str) (def_val : WvString) :
    c.get section_name entry def_val = d.get section_name entry def_val := by
  rw [get, get, get_inherited_congr h, hglobal]

theorem get_saved {calls : List (Str × Str × WvString)}
    (hcalls : ∀ call ∈ calls, Savable call.1 call.2.1 call.2.2) :
    ∃ file, (set_all {} calls).save = some file ∧ ∀ section_name entry def_val,
      (load_file {} file).get section_name entry def_val =
        (set_all {} calls).get section_name entry def_val := by
  have hstart : WvConf.Legible {} :=
    ⟨rfl, ⟨nofun, Pairwise.nil⟩,
      nofun, nofun, Pairwise.nil⟩
  obtain ⟨file, hsave, hload⟩ :=
    load_file_save (legible_set_all hstart hcalls) (error_set_all {} calls)
  refine ⟨file, hsave, fun section_name entry def_val => ?_⟩
  have hsame : (load_file {} file).sections = (set_all {} calls).sections ∧
      (load_file {} file).globalsection = (set_all {} calls).globalsection := by
    rw [hload]
    exact ⟨rfl, rfl⟩
  exact get_congr hsame.1 hsame.2 section_name entry def_val

/-- A section that inherits from another one. -/
theorem get_saved_inherited :
    ∃ file, (set_all {} [(bytes "a", bytes "Inherits", some (bytes "B")),
        (bytes "b", bytes "x", some (bytes "[1] = 2"))]).save = some file ∧
      ∀ section_name entry def_val, (load_file {} file).get section_name entry def_val =
        (set_all {} [(bytes "a", bytes "Inherits", some (bytes "B")),
          (bytes "b", bytes "x", some (bytes "[1] = 2"))]).get section_name entry def_val := by
  apply get_saved
  rw [forall_mem_cons, forall_mem_singleton]
  exact ⟨⟨⟨by decide, by decide, by decide⟩, ⟨by decide, by decide, by decide, by decide⟩,
      by decide⟩,
    ⟨⟨by decide, by decide, by decide⟩, ⟨by decide, by decide, by decide, by decide⟩, by decide⟩⟩

end WvConf

end WvStreams
