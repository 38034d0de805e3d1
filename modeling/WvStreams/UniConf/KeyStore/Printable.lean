import WvStreams.UniConf.KeyStore.Slice
import WvStreams.UniConf.KeyStore.Runs

/-!
# Parsing and printing keys

The key of a string has the non-empty runs between its slashes, and prints as them joined. A key
comes back from what it prints exactly when no segment but the last is empty, and not the only one
(`parse_print_iff`). The constructors make no other keys, but `append` to a key with a trailing
slash does.
-/

namespace WvStreams

open Lib UniConfKey List

namespace KeySlice

/-- The key that `UniConfKey(key)` of a string makes, where the size is 4. -/
def parse (key : Str) (size : Nat := 4) : Option KeySlice :=
  (KeyHeap.newStore size key).bind fun v =>
    if h : v.used ≤ v.vec.length then some ⟨v, 0, v.used, Nat.zero_le _, h⟩ else none

def runs (s : Str) : List Str := (s.splitOn slash).filter (· ≠ [])

/-- The key of a string is there, has the runs as its segments, with an empty one for a trailing
slash, and prints as these joined with slashes. -/
def Parses (s : Str) : Prop := ∃ k, parse s = some k ∧
  k.value = runs s ++ (if s.getLast? = some slash ∧ runs s ≠ [] then [[]] else []) ∧
  k.printable = intercalate [slash] k.value

def ComesBack (k : KeySlice) : Prop :=
  ∃ other, parse k.printable = some other ∧ other.compareto k = 0

theorem parse_eq (s : Str) : ∃ k, parse s = some k ∧ k.value = ofString s := by
  obtain ⟨rest, hstore⟩ := KeyHeap.newStore_eq 4 s
  have hle : (ofString s).length ≤ (ofString s ++ rest).length := by simp
  refine ⟨⟨⟨ofString s ++ rest, (ofString s).length⟩, 0, (ofString s).length, Nat.zero_le _, hle⟩,
    ?_, ?_⟩
  · rw [parse, hstore, Option.bind_some, dif_pos hle]
  · rw [value, SegmentVector.slice, drop_zero]
    exact take_left

theorem parses (s : Str) : Parses s := by
  obtain ⟨k, hk, hvalue⟩ := parse_eq s
  refine ⟨k, hk, ?_, k.printable_eq⟩
  have hruns : ofString s = if s.getLast? = some slash ∧ runs s ≠ [] then runs s ++ [[]]
      else runs s := rfl
  rw [hvalue, hruns]
  by_cases hend : s.getLast? = some slash ∧ runs s ≠ []
  · rw [if_pos hend, if_pos hend]
  · rw [if_neg hend, if_neg hend, append_nil]

theorem valid_of_map_fold {K L : UniConfKey} (h : K.map fold = L.map fold) (hK : K.Valid) :
    L.Valid := by
  have hmem : ∀ {M : UniConfKey}, [] ∈ M ↔ ([] : Segment) ∈ M.map fold := by
    intro M
    rw [mem_map]
    exact ⟨fun hM => ⟨[], hM, rfl⟩, fun ⟨s, hs, hnil⟩ => fold_eq_nil.mp hnil ▸ hs⟩
  constructor
  · rw [hmem, map_dropLast, ← h, ← map_dropLast, ← hmem]
    exact hK.inner
  · rintro rfl
    apply hK.alone
    rw [map_singleton, map_eq_singleton_iff] at h
    obtain ⟨s, rfl, hs⟩ := h
    rw [fold_eq_nil.mp hs]

theorem comesBack_iff {k : KeySlice} (hslash : ∀ s ∈ k.value, slash ∉ s) :
    ComesBack k ↔ k.value.Valid := by
  obtain ⟨other, hother, hvalue⟩ := parse_eq k.printable
  constructor
  · rintro ⟨other', hother', hzero⟩
    obtain rfl := Option.some.inj (hother.symm.trans hother')
    have hsame := (compareto_eq_zero_iff other k).mp hzero
    apply valid_of_map_fold hsame
    rw [hvalue]
    exact valid_ofString _
  · intro hvalid
    refine ⟨other, hother, (compareto_eq_zero_iff other k).mpr ?_⟩
    rw [hvalue, printable_eq, hvalid.ofString_printable hslash]

/-- For every string, and every key without slashes in its segments. -/
theorem parse_print_iff (s : Str) (k : KeySlice) (hslash : ∀ t ∈ k.value, slash ∉ t) :
    (Parses s ∧ ComesBack k) ↔ k.value.Valid := by
  rw [comesBack_iff hslash, and_iff_right (parses s)]

def ab : KeySlice := ⟨⟨[[97], [98]], 2⟩, 0, 2, by decide, by decide⟩

theorem parse_print_ab : (Parses (bytes "a//b/") ∧ ComesBack ab) ↔ ab.value.Valid :=
  parse_print_iff (bytes "a//b/") ab (by decide)

/-- The key `a/` to which `b` is appended: it prints `a//b`, which is another key. -/
theorem not_comesBack : ∃ (h : KeyHeap) (k : KeySlice),
    ((KeyHeap.initial.string 4 (bytes "a/")).bind fun h => (h.string 4 (bytes "b")).bind fun h =>
      h.append 5 3 4) = some h ∧ h.value 3 = some k.value ∧ (∀ t ∈ k.value, slash ∉ t) ∧
        k.printable = bytes "a//b" ∧ ¬ ComesBack k := by
  have hslash : ∀ t ∈ KeySlice.value ⟨⟨[[97], [], [98]], 3⟩, 0, 3, by decide, by decide⟩,
      slash ∉ t := by decide
  refine ⟨_, ⟨⟨[[97], [], [98]], 3⟩, 0, 3, by decide, by decide⟩, rfl, rfl, hslash, rfl, ?_⟩
  rw [comesBack_iff hslash]
  exact fun hvalid => hvalid.inner (by decide)

end KeySlice

end WvStreams
