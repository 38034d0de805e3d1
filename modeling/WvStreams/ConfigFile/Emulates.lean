import WvStreams.Lib.Machine
import WvStreams.ConfigFile.Lookup
import WvStreams.ConfigFile.EmuLookup

/-!
# `WvConfEmu` emulates `WvConf`

Both are given the same calls with single names. As long as no call meets one of the differences
between them (`WvConf.Alike`), the tree of the `WvConfEmu` holds what the sections of the `WvConf`
have themselves (`Emulates`), and both give the same answers (`emulates`).

The differences are: a `WvConf` takes the blanks off the end of a name that it sets; its `get`
inherits, and that of the `WvConfEmu` does not; they do not read all texts as the same numbers;
and a name that is inherited by may have slashes in front of it in the `WvConfEmu` only.
-/

namespace WvStreams

open Lib UniConfKey WvConfEmu

inductive WvConfCall where
  | set (section_name entry : Str) (value : WvString)
  | maybeset (section_name entry : Str) (value : WvString)
  | setint (section_name entry : Str) (value : IntType.int.Value)
  | delete_section (section_name : Str)
  | get (section_name entry : Str) (def_val : WvString)
  | getint (section_name entry : Str) (def_val : IntType.int.Value)
  | fuzzy_get (sections : List Str) (entry : Str) (def_val : WvString)

inductive WvConfAnswer where
  | done
  | text (ret : WvString)
  | number (ret : Int)
  deriving DecidableEq

/-- The names are single segments. -/
def WvConfCall.Single : WvConfCall → Prop
  | .set section_name entry _ | .maybeset section_name entry _ | .setint section_name entry _
  | .get section_name entry _ | .getint section_name entry _ =>
    UniConfKey.Single section_name ∧ UniConfKey.Single entry
  | .delete_section section_name => UniConfKey.Single section_name
  | .fuzzy_get sections entry _ => (∀ s ∈ sections, UniConfKey.Single s) ∧ UniConfKey.Single entry

instance : (call : WvConfCall) → Decidable call.Single
  | .set section_name entry _ | .maybeset section_name entry _ | .setint section_name entry _
  | .get section_name entry _ | .getint section_name entry _ =>
    inferInstanceAs (Decidable (UniConfKey.Single section_name ∧ UniConfKey.Single entry))
  | .delete_section section_name => inferInstanceAs (Decidable (UniConfKey.Single section_name))
  | .fuzzy_get sections entry _ =>
    inferInstanceAs (Decidable ((∀ s ∈ sections, UniConfKey.Single s) ∧ UniConfKey.Single entry))

namespace WvConf

def call (c : WvConf) : WvConfCall → WvConf × WvConfAnswer
  | .set section_name entry value => (c.set section_name entry value, .done)
  | .maybeset section_name entry value => (c.maybeset section_name entry value, .done)
  | .setint section_name entry value => (c.setint section_name entry value, .done)
  | .delete_section section_name => (c.delete_section section_name, .done)
  | .get section_name entry def_val => (c, .text (c.get section_name entry def_val))
  | .getint section_name entry def_val => (c, .number (c.getint section_name entry def_val))
  | .fuzzy_get sections entry def_val => (c, .text (c.fuzzy_get sections entry def_val))

/-- The name has a slash, and leads to a section all the same if it is made a key. -/
def Misspelt (c : WvConf) (name : Str) : Prop :=
  UniConfKey.slash ∈ name ∧ ∃ s ∈ c.sections, (UniConfKey.ofString name).map fold = [fold s.name]

/-- The call does not meet a difference. -/
def Alike (c : WvConf) : WvConfCall → Prop
  | .set _ entry value => value.getD [] = [] ∨ trimEnd entry = entry
  | .maybeset section_name entry value =>
    value.getD [] = [] ∨ (trimEnd entry = entry ∧ c.Own section_name entry)
  | .setint _ entry _ => trimEnd entry = entry
  | .delete_section _ => True
  | .get section_name entry _ => c.Own section_name entry
  | .getint section_name entry def_val =>
    c.Own section_name entry ∧ AnsweredAlike (c.lookup section_name entry) def_val
  | .fuzzy_get sections entry _ => ∀ name, (c.chain entry).Visits sections name → ¬ c.Misspelt name

theorem alike_fuzzy_get {c : WvConf} {sections : List Str} (hsections : ∀ s ∈ sections, slash ∉ s)
    (h : ∀ s ∈ c.sections, ∀ value ∈ s.get (bytes "Inherits"), slash ∉ value)
    (entry : Str) (def_val : WvString) : c.Alike (.fuzzy_get sections entry def_val) := by
  have hleads : ∀ {x y : Str}, (c.chain entry).Leads x y → slash ∉ x → slash ∉ y := by
    intro x y hxy hx
    induction hxy with
    | refl => exact hx
    | @tail y z _ hnext _ =>
      have hlink := (c.chain_link entry y).symm.trans hnext.link_eq
      obtain ⟨s, hs, hvalue⟩ := Option.bind_eq_some_iff.mp hlink
      exact h s (List.mem_of_find?_eq_some hs) z hvalue
  intro name hvisits hmisspelt
  induction hvisits with
  | head hxy => exact hleads hxy (hsections _ List.mem_cons_self) hmisspelt.1
  | tail _ _ ih => exact ih (fun s hs => hsections s (List.mem_cons_of_mem _ hs)) hmisspelt

end WvConf

def WvConfEmu.call (c : WvConfEmu) : WvConfCall → WvConfEmu × WvConfAnswer
  | .set section_name entry value => (c.set section_name entry value, .done)
  | .maybeset section_name entry value => (c.maybeset section_name entry value, .done)
  | .setint section_name entry value => (c.setint section_name entry value, .done)
  | .delete_section section_name => (c.delete_section section_name, .done)
  | .get section_name entry def_val => (c, .text (c.get section_name entry def_val))
  | .getint section_name entry def_val => (c, .number (c.getint section_name entry def_val))
  | .fuzzy_get sections entry def_val =>
    let (ret, c) := c.fuzzy_get sections entry def_val
    (c, .text ret)

/-- The tree holds what the sections have. -/
structure Emulates (c : WvConf) (e : WvConfEmu) : Prop where
  tidy : c.Tidy
  same : ∀ {section_name entry : Str}, UniConfKey.Single section_name → UniConfKey.Single entry →
    c.lookup section_name entry = e.uniconf.content [fold section_name, fold entry]

namespace Emulates

variable {c : WvConf} {e : WvConfEmu}

theorem start : Emulates {} {} := by
  refine ⟨WvConf.tidy_start, fun {section_name entry} _ _ => ?_⟩
  rw [WvConf.lookup_none rfl rfl]
  rfl

variable {entry section_name : Str}

theorem get_key (h : Emulates c e) (hsection : Single section_name) (hentry : Single entry) :
    e.uniconf.get (WvConfEmu.key section_name entry) = c.lookup section_name entry := by
  rw [WvConfEmu.get_key _ hsection.spells hentry, h.same hsection hentry]

theorem set (h : Emulates c e) (value : WvString) (hsection : Single section_name)
    (hentry : Single entry) (htrimmed : value.getD [] = [] ∨ trimEnd entry = entry) :
    Emulates (c.set section_name entry value) (e.set section_name entry value) := by
  have hvalue : (if value.getD [] ≠ [] then value else none) =
      if value.getD [] = [] then none else some (value.getD []) := by
    cases value with
    | none => rfl
    | some v => exact ite_not _ _ _
  refine ⟨h.tidy.set hsection htrimmed, fun {s n} hs hn => ?_⟩
  rw [h.tidy.lookup_set htrimmed, h.same hs hn, WvConfEmu.set, if_neg hentry.ne]
  rw [WvConfEmu.content_set_key _ hsection hentry, hvalue]

theorem setint (h : Emulates c e) (value : IntType.int.Value)
    (hsection : Single section_name) (hentry : Single entry) (htrimmed : trimEnd entry = entry) :
    Emulates (c.setint section_name entry value) (e.setint section_name entry value) := by
  have hset := h.set (some (WvFastString.ofInt .int value)) hsection hentry
    (Or.inr htrimmed)
  refine ⟨hset.tidy, fun {s n} hs hn => ?_⟩
  rw [WvConf.setint, hset.same hs hn, WvConfEmu.set, WvConfEmu.setint, if_neg hentry.ne,
    if_neg hentry.ne]
  rw [if_pos]
  exact ofInt_ne_nil value

theorem delete_section (h : Emulates c e) (hsection : Single section_name) :
    Emulates (c.delete_section section_name) (e.delete_section section_name) := by
  refine ⟨h.tidy.delete_section section_name, fun {s n} hs hn => ?_⟩
  rw [h.tidy.lookup_delete, h.same hs hn, WvConfEmu.delete_section]
  rw [WvConfEmu.content_remove _ hsection]

theorem set_nothing (h : Emulates c e) {value : WvString}
    (hsection : Single section_name) (hentry : Single entry)
    (hvalue : value.getD [] = []) (hnone : c.lookup section_name entry = none) :
    Emulates c (e.set section_name entry value) := by
  have hset := h.set value hsection hentry (Or.inl hvalue)
  refine ⟨h.tidy, fun {s n} hs hn => ?_⟩
  rw [← hset.same hs hn, h.tidy.lookup_set (Or.inl hvalue), if_pos hvalue]
  split
  · rename_i hnames
    rw [WvConf.lookup_congr c hnames.1 hnames.2, hnone]
  · rfl

theorem get_eq (h : Emulates c e) (hsection : Single section_name)
    (hentry : Single entry) (def_val : WvString) :
    e.get section_name entry def_val = (c.lookup section_name entry).or def_val := by
  rw [WvConfEmu.get, if_neg (not_or.mpr ⟨hsection.ne, hentry.ne⟩), UniTempGen.getme,
    h.get_key hsection hentry]
  cases c.lookup section_name entry <;> rfl

theorem get (h : Emulates c e) (hsection : Single section_name)
    (hentry : Single entry) (hown : c.Own section_name entry) (def_val : WvString) :
    c.get section_name entry def_val = e.get section_name entry def_val := by
  rw [h.tidy.get_own hown, h.get_eq hsection hentry]

theorem getint (h : Emulates c e) {def_val : IntType.int.Value}
    (hsection : Single section_name) (hentry : Single entry)
    (halike : c.Alike (.getint section_name entry def_val)) :
    c.getint section_name entry def_val = e.getint section_name entry def_val := by
  obtain ⟨hown, hread⟩ := halike
  rw [WvConf.getint, h.tidy.get_own hown, WvConfEmu.getint,
    if_neg (not_or.mpr ⟨hsection.ne, hentry.ne⟩), UniTempGen.getme, h.get_key hsection hentry,
    hread.eq]
  cases c.lookup section_name entry <;> rfl

theorem maybeset (h : Emulates c e) {value : WvString} (hsection : Single section_name)
    (hentry : Single entry) (halike : c.Alike (.maybeset section_name entry value)) :
    Emulates (c.maybeset section_name entry value) (e.maybeset section_name entry value) := by
  have heget := h.get_eq hsection hentry none
  by_cases hlookup : c.lookup section_name entry = none
  · rw [hlookup] at heget
    rw [WvConfEmu.maybeset, if_pos ⟨hentry.ne, heget⟩, WvConf.maybeset]
    split
    · exact h.set value hsection hentry (halike.imp_right And.left)
    · rename_i hno
      apply h.set_nothing hsection hentry _ hlookup
      rcases halike with hempty | ⟨-, hown⟩
      · exact hempty
      · have hget := h.tidy.get_own hown none
        rw [hlookup] at hget
        rw [not_not.mp fun hvalue => hno ⟨hvalue, hget⟩]
        rfl
  · have hget := h.tidy.get_own (Or.inl hlookup) none
    rw [Option.or_none] at hget heget
    rw [WvConf.maybeset, WvConfEmu.maybeset, if_neg fun hset => hlookup (hget.symm.trans hset.2),
      if_neg fun hset => hlookup (heget.symm.trans hset.2)]
    exact h

theorem lookup_eq (h : Emulates c e) {name : Str} (hentry : Single entry)
    (hname : ¬ c.Misspelt name) : c.lookup name entry =
      if (ofString name).numsegments = 1 then
        e.uniconf.get (WvConfEmu.key name entry) else none := by
  by_cases hslash : slash ∈ name
  · have hnone : c.lookup name entry = none := by
      apply WvConf.lookup_eq_none
      intro s hs heq
      exact (h.tidy.names s hs).slash (slash_of_fold heq.symm hslash)
    rw [hnone]
    split
    · rename_i hone
      obtain ⟨t, ht⟩ := exists_spells hone
      rw [WvConfEmu.get_key _ ht hentry, ← h.same ht.single hentry]
      symm
      apply WvConf.lookup_eq_none
      intro s hs heq
      refine hname ⟨hslash, s, hs, ?_⟩
      rw [ht.ofString_eq]
      exact congrArg (fun name => [name]) heq.symm
    · rfl
  · by_cases hne : name = []
    · rw [hne, if_neg (by decide)]
      apply WvConf.lookup_eq_none
      intro s hs heq
      exact (h.tidy.names s hs).ne (fold_eq_nil.mp heq)
    · have hsingle : Single name := ⟨hne, hslash⟩
      rw [if_pos hsingle.spells.numsegments, h.get_key hsingle hentry]

theorem sameAt (h : Emulates c e) {name : Str} (hentry : Single entry) (hname : ¬ c.Misspelt name) :
    (c.chain entry).SameAt (chain e.uniconf entry) name := by
  constructor
  · rw [WvConf.chain_lookup, h.lookup_eq hentry hname, LinkChain.lookup, chain]
    dsimp only
    split
    · rw [Option.bind_some, if_neg hentry.ne]
    · rw [Option.bind_none]
  · rw [WvConf.chain_link, h.lookup_eq (by decide) hname, LinkChain.link, chain]
    dsimp only
    split
    · rw [Option.bind_some]
    · rw [Option.bind_none]

theorem fuzzy_get (h : Emulates c e) {sections : List Str} (hentry : Single entry)
    (halike : ∀ name, (c.chain entry).Visits sections name → ¬ c.Misspelt name)
    (def_val : WvString) : c.fuzzy_get sections entry def_val =
      (e.fuzzy_get sections entry def_val).1 ∧
        (e.fuzzy_get sections entry def_val).2.uniconf = e.uniconf := by
  obtain ⟨huniconf, hsearch⟩ := e.searchAll_fuzzy entry [] sections
  have hsame : c.fuzzy_sections entry [] sections = (e.fuzzy_sections entry [] sections).1 := by
    ext value
    rw [(c.searchAll_fuzzy entry [] sections).some_iff LinkChain.fruitless_nil,
      hsearch.some_iff LinkChain.fruitless_nil]
    exact LinkChain.FoundFirst.congr fun name hvisits => h.sameAt hentry (halike name hvisits)
  rw [WvConf.fuzzy_get, WvConfEmu.fuzzy_get, hsame]
  rcases hresult : e.fuzzy_sections entry [] sections with ⟨_ | ret, e'⟩
  · rw [hresult] at huniconf
    exact ⟨rfl, huniconf⟩
  · rw [hresult] at huniconf
    exact ⟨rfl, huniconf⟩

/-- Both answer a call alike, and the tree still holds what the sections have. -/
theorem step (h : Emulates c e) {call : WvConfCall} (hsingle : call.Single)
    (halike : c.Alike call) :
    (c.call call).2 = (e.call call).2 ∧ Emulates (c.call call).1 (e.call call).1 := by
  cases call with
  | set section_name entry value => exact ⟨rfl, h.set value hsingle.1 hsingle.2 halike⟩
  | maybeset section_name entry value => exact ⟨rfl, h.maybeset hsingle.1 hsingle.2 halike⟩
  | setint section_name entry value => exact ⟨rfl, h.setint value hsingle.1 hsingle.2 halike⟩
  | delete_section section_name => exact ⟨rfl, h.delete_section hsingle⟩
  | get section_name entry def_val =>
    exact ⟨congrArg WvConfAnswer.text (h.get hsingle.1 hsingle.2 halike def_val), h⟩
  | getint section_name entry def_val =>
    exact ⟨congrArg WvConfAnswer.number (h.getint hsingle.1 hsingle.2 halike), h⟩
  | fuzzy_get sections entry def_val =>
    obtain ⟨hsame, huniconf⟩ := h.fuzzy_get hsingle.2 halike def_val
    refine ⟨congrArg WvConfAnswer.text hsame, h.tidy, fun {s n} hs hn => ?_⟩
    have hafter : (e.call (.fuzzy_get sections entry def_val)).1.uniconf = e.uniconf := huniconf
    rw [hafter]
    exact h.same hs hn

end Emulates

namespace WvConfCall

def machine : Machine (WvConf × WvConfEmu) WvConfCall (WvConfAnswer × WvConfAnswer) where
  step s call := some (((s.1.call call).1, (s.2.call call).1), (s.1.call call).2, (s.2.call call).2)

def Agree (_ : WvConf × WvConfEmu) (_ : WvConfCall) (_ : WvConf × WvConfEmu)
    (answers : WvConfAnswer × WvConfAnswer) : Prop := answers.1 = answers.2

/-- All calls of a run are answered alike, if none of them meets a difference. -/
theorem emulates {calls : List WvConfCall} (hsingle : ∀ call ∈ calls, call.Single)
    (halike : machine.Along (fun s call => s.1.Alike call) ({}, {}) calls) :
    machine.Runs Agree ({}, {}) calls := by
  have hstep (s : WvConf × WvConfEmu) (call : WvConfCall) (hs : Emulates s.1 s.2)
      (hcall : call.Single ∧ s.1.Alike call) : ∃ s' answers,
        machine.step s call = some (s', answers) ∧ Agree s call s' answers ∧ Emulates s'.1 s'.2 := by
    obtain ⟨hsame, hnext⟩ := hs.step hcall.1 hcall.2
    exact ⟨_, _, rfl, hsame, hnext⟩
  have hboth := (Machine.along_of_forall hsingle).and halike
  exact Machine.runs_of_along hstep Emulates.start hboth

/-- Values are set and found again under other spellings, also those of another section. -/
theorem emulates_sections :
    machine.Runs Agree ({}, {}) [.set (bytes "A") (bytes "x") (some (bytes "Yes")),
        .set (bytes "b") (bytes "inherits") (some (bytes "a")),
        .maybeset (bytes "a") (bytes "X") (some (bytes "no")),
        .getint (bytes "A") (bytes "x") ⟨7, by decide⟩,
        .fuzzy_get [bytes "c", bytes "B"] (bytes "x") none,
        .setint (bytes "B") (bytes "X") ⟨-12, by decide⟩,
        .getint (bytes "b") (bytes "x") ⟨0, by decide⟩, .delete_section (bytes "a"),
        .get (bytes "A") (bytes "x") (some (bytes "none"))] := by
  refine emulates (by decide) ⟨Or.inr (by decide), fun _ _ h => ?_⟩
  cases h
  refine ⟨Or.inr (by decide), fun _ _ h => ?_⟩
  cases h
  refine ⟨Or.inr ⟨by decide, by decide +kernel⟩, fun _ _ h => ?_⟩
  cases h
  refine ⟨⟨by decide +kernel, by decide +kernel⟩, fun _ _ h => ?_⟩
  cases h
  refine ⟨WvConf.alike_fuzzy_get (by decide) (by decide +kernel) _ _, fun _ _ h => ?_⟩
  cases h
  refine ⟨(by decide : trimEnd (bytes "X") = bytes "X"), fun _ _ h => ?_⟩
  cases h
  refine ⟨⟨by decide +kernel, by decide +kernel⟩, fun _ _ h => ?_⟩
  cases h
  refine ⟨trivial, fun _ _ h => ?_⟩
  cases h
  exact ⟨(by decide +kernel : WvConf.Own _ _ _), fun _ _ _ => trivial⟩

/-- What a section inherits is got from a `WvConf` only. -/
theorem emulates_fails : ¬ ∀ calls : List WvConfCall, (∀ call ∈ calls, call.Single) →
    machine.Runs Agree ({}, {}) calls := by
  intro h
  have hsingle : ∀ call ∈ [WvConfCall.set (bytes "A") (bytes "Inherits") (some (bytes "B")),
      .set (bytes "B") (bytes "x") (some (bytes "1")), .get (bytes "A") (bytes "x") none],
      call.Single := by decide
  obtain ⟨_, _, hinherits, -, _, _, hset, -, _, _, hget, hagree, -⟩ := h _ hsingle
  cases hinherits
  cases hset
  cases hget
  exact absurd hagree (by unfold Agree; decide +kernel)

end WvConfCall

end WvStreams
