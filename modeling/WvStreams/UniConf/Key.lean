import WvStreams.Lib.Forest
import WvStreams.Strings.WvString

/-!
# Keys

A `UniConfKey` is the list of its segments. Segments are compared with `strcasecmp`, so a
key stands for its path of folded segments. An empty last segment is a trailing slash; the
constructors produce no other empty segment.
-/

namespace WvStreams

open Lib List

abbrev Segment := Str

/-- `strcasecmp` compares lower-case versions. -/
instance : Folds Segment Segment := ⟨List.map tolower⟩

abbrev UniConfKey := List Segment

namespace UniConfKey

def isempty (key : UniConfKey) : Bool := List.isEmpty key

/-- The last segment is empty. -/
def hastrailingslash (key : UniConfKey) : Bool := key.getLast? == some []

/-- A lone empty segment is the root. -/
def collapse (key : UniConfKey) : UniConfKey := if key = [[]] then [] else key

/-- `UniConfKey(path, key)`: the non-empty segments of both, with a trailing slash if `key`
is empty or has one. -/
def concat (path key : UniConfKey) : UniConfKey :=
  collapse (path.filter (· ≠ []) ++ key.filter (· ≠ []) ++
    if key.isempty || key.hastrailingslash then [[]] else [])

/-- What the constructors produce: no empty segment except one at the end, not alone. -/
structure Valid (key : UniConfKey) : Prop where
  inner : [] ∉ key.dropLast
  alone : key ≠ [[]]

/-- No segment is empty: a valid key without a trailing slash. -/
def Plain (key : UniConfKey) : Prop := [] ∉ key

instance (key : UniConfKey) : Decidable key.Plain := inferInstanceAs (Decidable ([] ∉ key))

/-- The folded non-empty segments: the place in the tree that the key leads to. -/
def path (key : UniConfKey) : List Segment := (key.filter (· ≠ [])).map fold

/-- `operator==`: `compareto` finds no difference. -/
def same (a b : UniConfKey) : Bool := a.map fold == b.map fold

variable {key : UniConfKey} {s : Segment}

@[simp] theorem fold_eq_nil : fold s = ([] : Segment) ↔ s = [] :=
  map_eq_nil_iff

theorem Plain.filter_eq (h : key.Plain) : key.filter (· ≠ []) = key := by
  apply filter_eq_self.mpr
  intro s hs
  have : s ≠ [] := fun e => h (e ▸ hs)
  simpa using this

theorem Plain.path_eq (h : key.Plain) : key.path = key.map fold := by
  rw [path, h.filter_eq]

theorem tolower_tolower (c : Byte) : tolower (tolower c) = tolower c := by
  by_cases h : 65 ≤ c ∧ c ≤ 90
  · have hlow : ¬ (65 ≤ c + 32 ∧ c + 32 ≤ 90) := by
      simp only [UInt8.le_iff_toNat_le, UInt8.toNat_add, UInt8.reduceToNat] at h ⊢
      omega
    simp only [tolower, if_pos h, if_neg hlow]
  · simp only [tolower, if_neg h]

theorem fold_fold (s : Segment) : fold (fold s : Segment) = (fold s : Segment) := by
  show (s.map tolower).map tolower = s.map tolower
  rw [map_map]
  apply map_congr_left
  intro c _
  exact tolower_tolower c

open UniConfKey

theorem Plain.map_fold (h : key.Plain) : Plain (key.map fold) ∧ path (key.map fold) = key.path := by
  have hplain : Plain (key.map fold) := by
    intro hmem
    obtain ⟨s, hs, he⟩ := mem_map.mp hmem
    exact h (fold_eq_nil.mp he ▸ hs)
  refine ⟨hplain, ?_⟩
  rw [hplain.path_eq, h.path_eq, map_map]
  apply map_congr_left
  intro s _
  exact fold_fold s

theorem Plain.not_mem_path (h : key.Plain) : ([] : Segment) ∉ key.path := by
  rw [h.path_eq, mem_map]
  rintro ⟨s, hs, he⟩
  exact h (fold_eq_nil.mp he ▸ hs)

theorem Plain.not_slash (h : key.Plain) : key.hastrailingslash = false := by
  by_contra hs
  have hs' : key.getLast? = some [] := by simpa [hastrailingslash] using hs
  exact h (mem_of_getLast? hs')

theorem Plain.append {a b : UniConfKey} (ha : a.Plain) (hb : b.Plain) : Plain (a ++ b) := by
  simpa [Plain] using And.intro ha hb

theorem plain_nil : Plain [] := by simp [Plain]

theorem plain_cons : Plain (s :: key) ↔ s ≠ [] ∧ key.Plain := by
  simp [Plain, eq_comm]

theorem Plain.concat (h : key.Plain) (hs : s ≠ []) : Plain (key ++ [s]) :=
  h.append (plain_cons.mpr ⟨hs, plain_nil⟩)

theorem plain_append {a b : UniConfKey} : Plain (a ++ b) ↔ a.Plain ∧ b.Plain := by
  simp [Plain]

/-- A valid key is plain, or a non-empty plain key with a trailing slash. -/
theorem Valid.cases (h : key.Valid) :
    key.Plain ∨ ∃ k : UniConfKey, k ≠ [] ∧ k.Plain ∧ key = k ++ [[]] := by
  rcases eq_nil_or_concat key with rfl | ⟨k, s, rfl⟩
  · exact Or.inl plain_nil
  · have hk : Plain k := by simpa [Plain] using h.inner
    by_cases hs : s = []
    · subst hs
      refine Or.inr ⟨k, ?_, hk, by simp⟩
      rintro rfl
      exact h.alone rfl
    · left
      simpa [plain_append, plain_cons, plain_nil] using And.intro hk hs

theorem Plain.valid (h : key.Plain) : key.Valid where
  inner hm := h (mem_of_mem_dropLast hm)
  alone e := h (by simp [e])

theorem valid_slash {k : UniConfKey} (hne : k ≠ []) (hk : k.Plain) :
    Valid (k ++ [[]]) where
  inner := by simpa [Plain] using hk
  alone := by simpa using hne

theorem Valid.head_ne (h : Valid (s :: key)) : s ≠ [] := by
  rintro rfl
  cases key with
  | nil => exact h.alone rfl
  | cons t key => exact h.inner (by simp)

theorem slash_hastrailingslash (k : UniConfKey) : hastrailingslash (k ++ [[]]) = true := by
  simp [hastrailingslash]

@[simp] theorem path_nil : path [] = [] := rfl

@[simp] theorem path_cons_empty (key : UniConfKey) : path ([] :: key) = key.path := rfl

theorem path_cons_of_ne (h : s ≠ []) (key : UniConfKey) : path (s :: key) = fold s :: key.path := by
  simp [path, h]

theorem path_slash {k : UniConfKey} : path (k ++ [[]]) = k.path := by
  simp [path]

theorem path_append (a b : UniConfKey) : path (a ++ b) = a.path ++ b.path := by
  simp [path]

theorem path_filter (k : UniConfKey) : path (k.filter (· ≠ [])) = k.path := by
  simp [path]

theorem path_collapse (k : UniConfKey) : path (collapse k) = k.path := by
  unfold collapse
  split
  · rename_i h
    rw [h]
    rfl
  · rfl

theorem path_concatKey (a b : UniConfKey) : path (concat a b) = a.path ++ b.path := by
  rw [concat, path_collapse, path_append, path_append, path_filter, path_filter]
  split
  · simp
  · simp

theorem path_concat (k : UniConfKey) {t : Segment} (hs : s ≠ []) (h : fold t = fold s) :
    path (k ++ [t]) = k.path ++ [fold s] := by
  have ht : t ≠ [] := by
    rw [ne_eq, ← fold_eq_nil, h, fold_eq_nil]
    exact hs
  rw [path_append, path_cons_of_ne ht, path_nil, h]

theorem concat_name {section_ : UniConfKey} (h : section_.Plain) {name : Segment}
    (hn : name ≠ []) : concat section_ [name] = section_ ++ [name] := by
  have h1 : hastrailingslash [name] = false := by simpa [hastrailingslash] using hn
  have h2 : section_ ++ [name] ≠ [[]] := by
    intro e
    have := congrArg getLast? e
    simp at this
    exact hn this
  have h3 : filter (fun x => decide (x ≠ ([] : Segment))) [name] = [name] := by simp [hn]
  rw [concat, h.filter_eq, h3, h1]
  simp [isempty, collapse, h2]

abbrev slash : Byte := 47

/-- `UniConfKey(WvStringParm)`: the non-empty parts between slashes, with a trailing slash if
the string ends in one. -/
def ofString (key : Str) : UniConfKey :=
  let segments := (key.splitOn slash).filter (· ≠ [])
  if key.getLast? = some slash ∧ segments ≠ [] then segments ++ [[]] else segments

def printable (key : UniConfKey) : Str := List.intercalate [slash] key

def prepend (key _key : UniConfKey) : UniConfKey := collapse (_key.filter (· ≠ []) ++ key)

def first (key : UniConfKey) : UniConfKey := collapse (key.take 1)

def removefirst (key : UniConfKey) : UniConfKey := collapse (key.drop 1)

def removelast (key : UniConfKey) : UniConfKey := collapse key.dropLast

def append (key _key : UniConfKey) : UniConfKey :=
  collapse (key ++ _key.filter (· ≠ []) ++
    if _key.isempty || _key.hastrailingslash then [[]] else [])

theorem length_collapse_le (key : UniConfKey) : (collapse key).length ≤ key.length := by
  unfold collapse
  split
  · exact Nat.zero_le _
  · exact le_refl _

theorem filter_collapse (key : UniConfKey) :
    (collapse key).filter (· ≠ []) = key.filter (· ≠ []) := by
  unfold collapse
  split
  · rename_i h
    rw [h]
    rfl
  · rfl

theorem Valid.collapse_tail {rest : UniConfKey} (h : Valid (s :: rest)) :
    (collapse rest).Valid := by
  unfold collapse
  split
  · exact ⟨not_mem_nil, nofun⟩
  · rename_i hrest
    refine ⟨?_, hrest⟩
    intro hmem
    have hne : rest ≠ [] := by
      rintro rfl
      cases hmem
    apply h.inner
    rw [dropLast_cons_of_ne_nil hne]
    exact mem_cons_of_mem _ hmem

theorem Plain.collapse_eq (h : key.Plain) : collapse key = key := by
  unfold collapse
  split
  · rename_i heq
    rw [heq] at h
    exact absurd mem_cons_self h
  · rfl

theorem Plain.removelast_concat (h : key.Plain) (s : Segment) : removelast (key ++ [s]) = key := by
  rw [removelast, dropLast_concat, h.collapse_eq]

theorem append_first {check : UniConfKey} (hcheck : check.Plain) (hs : s ≠ []) (rest : UniConfKey) :
    append check (first (s :: rest)) = check ++ [s] := by
  have hfirst : first (s :: rest) = [s] := (plain_cons.mpr ⟨hs, plain_nil⟩ : Plain [s]).collapse_eq
  have hslash : hastrailingslash [s] = false := by simpa [hastrailingslash] using hs
  have hplain : Plain (check ++ [s]) := hcheck.concat hs
  have hfilter : filter (fun x => decide (x ≠ ([] : Segment))) [s] = [s] := by simp [hs]
  rw [append, hfirst, hslash, hfilter]
  simpa [isempty] using hplain.collapse_eq

/-- No segment is empty or has a slash. -/
def Sliced (key : UniConfKey) : Prop := ∀ s ∈ key, s ≠ [] ∧ slash ∉ s

theorem Sliced.plain (h : key.Sliced) : key.Plain :=
  fun hm => (h [] hm).1 rfl

theorem getLast?_printable (h : key.Sliced) : ∀ c ∈ (printable key).getLast?, c ≠ slash := by
  induction key with
  | nil => simp [printable]
  | cons s key ih =>
    obtain ⟨hs, hslash⟩ := h s mem_cons_self
    intro c hc
    cases key with
    | nil =>
      have hc' : s.getLast? = some c := by simpa [printable] using hc
      rintro rfl
      exact hslash (mem_of_getLast? hc')
    | cons t key =>
      have ht := h t (mem_cons_of_mem _ mem_cons_self)
      have hne : printable (t :: key) ≠ [] := by
        obtain ⟨d, t, rfl⟩ := exists_cons_of_ne_nil ht.1
        cases key <;> simp [printable]
      have hsplit : printable (s :: t :: key) = (s ++ [slash]) ++ printable (t :: key) := by
        simp [printable]
      rw [hsplit, getLast?_append_of_ne_nil _ hne] at hc
      exact ih (fun s hs => h s (mem_cons_of_mem _ hs)) c hc

theorem ofString_printable (h : key.Sliced) : ofString (printable key) = key := by
  have hfilter := h.plain.filter_eq
  have hend : (printable key).getLast? ≠ some slash := fun e => getLast?_printable h slash e rfl
  have hsplit : ((printable key).splitOn slash).filter (· ≠ []) = key := by
    cases key with
    | nil => rfl
    | cons s key =>
      rw [printable, splitOn_intercalate slash (fun s hs => (h s hs).2) (cons_ne_nil s key)]
      exact hfilter
  rw [ofString, hsplit, if_neg fun hboth => hend hboth.1]

theorem printable_cons (s t : Segment) (key : UniConfKey) :
    printable (s :: t :: key) = s ++ slash :: printable (t :: key) := by
  simp [printable]

theorem printable_ne_nil (h : key.Sliced) (hne : key ≠ []) : printable key ≠ [] := by
  obtain ⟨s, key, rfl⟩ := exists_cons_of_ne_nil hne
  have hs := (h s mem_cons_self).1
  cases key with
  | nil => simpa [printable] using hs
  | cons t key =>
    rw [printable_cons]
    exact append_ne_nil_of_left_ne_nil hs _

theorem printable_concat (hne : key ≠ []) (s : Segment) :
    printable (key ++ [s]) = printable key ++ slash :: s := by
  induction key with
  | nil => exact absurd rfl hne
  | cons t key ih =>
    cases key with
    | nil => simp [printable]
    | cons u key =>
      have hrest := ih (cons_ne_nil u key)
      rw [cons_append, cons_append, printable_cons, ← cons_append, hrest,
        printable_cons, append_assoc, cons_append]

theorem Valid.ofString_printable (h : key.Valid) (hslash : ∀ s ∈ key, slash ∉ s) :
    ofString (printable key) = key := by
  rcases h.cases with hplain | ⟨front, hne, hfront, rfl⟩
  · apply UniConfKey.ofString_printable
    intro s hs
    exact ⟨fun hnil => hplain (hnil ▸ hs), hslash s hs⟩
  · have hsplit : (printable (front ++ [[]])).splitOn slash = front ++ [[]] :=
      splitOn_intercalate slash hslash (by simp)
    have hfilter : (front ++ [([] : Segment)]).filter (· ≠ []) = front := by
      rw [filter_append, hfront.filter_eq]
      simp
    have hend : (printable (front ++ [[]])).getLast? = some slash := by
      rw [printable_concat hne]
      simp
    rw [ofString, hsplit, hfilter, if_pos ⟨hend, hne⟩]

theorem slash_notMem_splitOn (s : Str) : ∀ t ∈ s.splitOn slash, slash ∉ t := by
  induction s with
  | nil => simp [splitOn_nil]
  | cons c s ih =>
    have hcons : (c :: s).splitOn slash = if c = slash then [] :: s.splitOn slash
        else (s.splitOn slash).modifyHead (c :: ·) := by
      rw [splitOn, splitOnP_cons_eq_if_modifyHead]
      simp [splitOn]
    rw [hcons]
    split
    · simpa using ih
    · rename_i hc
      cases hs : s.splitOn slash with
      | nil => simp
      | cons t ts =>
        rw [hs, forall_mem_cons] at ih
        rw [modifyHead_cons, forall_mem_cons]
        refine ⟨?_, ih.2⟩
        rw [mem_cons, not_or]
        exact ⟨Ne.symm hc, ih.1⟩

theorem sliced_segments (s : Str) : Sliced ((s.splitOn slash).filter (· ≠ [])) := by
  intro t ht
  obtain ⟨hmem, hne⟩ := mem_filter.mp ht
  exact ⟨of_decide_eq_true hne, slash_notMem_splitOn s t hmem⟩

theorem valid_ofString (s : Str) : (ofString s).Valid := by
  have hplain := (sliced_segments s).plain
  unfold ofString
  dsimp only
  split
  · rename_i hslash
    exact valid_slash hslash.2 hplain
  · exact hplain.valid

theorem slash_notMem_ofString (s : Str) : ∀ t ∈ ofString s, slash ∉ t := by
  intro t ht
  unfold ofString at ht
  dsimp only at ht
  split at ht
  · rcases mem_append.mp ht with ht | ht
    · exact (sliced_segments s t ht).2
    · rw [mem_singleton.mp ht]
      exact not_mem_nil
  · exact (sliced_segments s t ht).2

theorem ofString_printable_ofString (s : Str) : ofString (printable (ofString s)) = ofString s :=
  (valid_ofString s).ofString_printable (slash_notMem_ofString s)

theorem mem_printable {c : Byte} (h : c ∈ printable key) : c = slash ∨ ∃ s ∈ key, c ∈ s := by
  induction key with
  | nil => simp [printable] at h
  | cons t key ih =>
    cases key with
    | nil => exact Or.inr ⟨t, mem_cons_self, by simpa [printable] using h⟩
    | cons u key =>
      rw [printable_cons, mem_append, mem_cons] at h
      rcases h with h | h | h
      · exact Or.inr ⟨t, mem_cons_self, h⟩
      · exact Or.inl h
      · exact (ih h).imp_right fun ⟨s, hs, hc⟩ => ⟨s, mem_cons_of_mem t hs, hc⟩

theorem subset_printable {t : Segment} (ht : t ∈ key) : t ⊆ printable key := by
  induction key with
  | nil => cases ht
  | cons u key ih =>
    cases key with
    | nil =>
      obtain rfl := mem_singleton.mp ht
      simp [printable]
    | cons v key =>
      rw [printable_cons]
      rcases mem_cons.mp ht with rfl | ht
      · exact subset_append_left t _
      · exact fun c hc => mem_append_right u (mem_cons_of_mem slash (ih ht hc))

theorem subset_of_mem_ofString {s : Str} {t : Segment} (ht : t ∈ ofString s) : t ⊆ s := by
  have hjoin : printable (s.splitOn slash) = s := intercalate_splitOn slash
  have hsegment : t ∈ (s.splitOn slash).filter (· ≠ []) → t ⊆ s := by
    intro ht
    have hsub := subset_printable (mem_of_mem_filter ht)
    rwa [hjoin] at hsub
  unfold ofString at ht
  dsimp only at ht
  split at ht
  · rcases mem_append.mp ht with ht | ht
    · exact hsegment ht
    · rw [mem_singleton.mp ht]
      exact nil_subset s
  · exact hsegment ht

theorem nul_notMem_printable {s : Str} (h : (0 : Byte) ∉ s) :
    (0 : Byte) ∉ printable (ofString s) := by
  intro h0
  rcases mem_printable h0 with h0 | ⟨t, ht, h0⟩
  · exact absurd h0 (by decide)
  · exact h (subset_of_mem_ofString ht h0)

theorem prepend_plain {path : UniConfKey} (hkey : key.Plain) (hpath : path.Plain) :
    prepend key path = path ++ key := by
  have hne : path ++ key ≠ [[]] := by
    intro e
    have hplain := hpath.append hkey
    rw [e] at hplain
    exact hplain mem_cons_self
  rw [prepend, hpath.filter_eq, collapse, if_neg hne]

end UniConfKey

/-- The keys that can be built. -/
abbrev ValidKey := { key : UniConfKey // key.Valid }

/-- The keys without a trailing slash. -/
abbrev PlainKey := { key : UniConfKey // key.Plain }

end WvStreams
