import WvStreams.UniConf.KeyStore.Itself
import WvStreams.UniConf.KeyStore.Objects

/-!
# All that is done to keys

Whatever is done to the keys that are there keeps the heap consistent, if every `append` and
`prepend` meets its condition (`Reached.consistent`). Where it does, the key becomes the
concatenation, and where it does not, the key does not (`edits_iff`).
-/

namespace WvStreams

open Option UniConfKey

namespace KeyHeap

/-- What a program does with keys. -/
inductive KeyOp
  | string (size : Nat) (key : Str)
  | copy (k : Nat)
  | assign (k l : Nat)
  | destroy (k : Nat)
  | concat (path key : Nat)
  | range (k : Nat) (i j : Int)
  | pop (k : Nat) (n : Int)
  | append (k l : Nat)
  | prepend (k l : Nat)

def step (fuel : Nat) (h : KeyHeap) : KeyOp → Option KeyHeap
  | .string size key => h.string size key
  | .copy k => h.copy k
  | .assign k l => h.assign k l
  | .destroy k => h.destroy k
  | .concat path key => h.concat path key
  | .range k i j => h.range k i j
  | .pop k n => h.pop k n
  | .append k l => h.append fuel k l
  | .prepend k l => h.prepend fuel k l

/-- When `append` of a key to another one makes the concatenation. -/
def AppendMeets (h : KeyHeap) (k l : Nat) : Prop :=
  ∃ o v p source, Sees h k o v ∧ Sees h l p source ∧ if l = k then v.slice o.left o.right = []
    else hastrailingslash (v.slice o.left o.right) = false ∧ (h.ref_count o.store ≠ 1 ∨
        AppendFits o v (v.slice o.left o.right) (source.slice p.left p.right))

/-- When `prepend` of a key to another one makes the concatenation. -/
def PrependMeets (h : KeyHeap) (k l : Nat) : Prop :=
  ∃ o v p source, Sees h k o v ∧ Sees h l p source ∧ if l = k then v.slice o.left o.right = []
    else source.slice p.left p.right = [] ∨ v.slice o.left o.right ≠ [] ∧ (h.ref_count o.store ≠ 1 ∨
        PrependFits o v (v.slice o.left o.right) (source.slice p.left p.right))

/-- The keys are there, `append` and `prepend` meet their conditions, and no key that has its store
for itself is assigned to itself. -/
def Meets (h : KeyHeap) : KeyOp → Prop
  | .string _ _ => True
  | .copy k | .destroy k | .range k _ _ | .pop k _ => h.key k ≠ none
  | .assign k l => h.key k ≠ none ∧ h.key l ≠ none ∧
      (k ≠ l ∨ ∀ o, h.key k = some o → h.ref_count o.store ≠ 1)
  | .concat path key => h.key path ≠ none ∧ h.key key ≠ none
  | .append k l => h.AppendMeets k l
  | .prepend k l => h.PrependMeets k l

/-- The heaps of programs, as long as all that is done meets its condition. -/
inductive Reached : KeyHeap → Prop
  | initial : Reached initial
  | step {h h' : KeyHeap} (op : KeyOp) (fuel : Nat) (hreached : Reached h)
      (hmeets : h.Meets op) (hstep : ∀ n, fuel < n → h.step n op = some h') : Reached h'

section Runs

variable {h h' : KeyHeap} {k l fuel : Nat} {op : KeyOp} {K L : UniConfKey}

theorem Consistent.sees (hh : h.Consistent) (hk : h.key k ≠ none) : ∃ o v, Sees h k o v := by
  obtain ⟨o, ho⟩ := ne_none_iff_exists'.mp hk
  obtain ⟨v, hv⟩ := hh.counted.sees ho
  exact ⟨o, v, hv⟩

theorem Consistent.step (hh : h.Consistent) (hmeets : h.Meets op) :
    ∃ fuel h', (∀ n, fuel < n → h.step n op = some h') ∧ h'.Consistent := by
  cases op with
  | string size key =>
    obtain ⟨h', hrun, hconsistent, -⟩ := hh.string size key
    exact ⟨0, h', fun _ _ => hrun, hconsistent⟩
  | copy k =>
    obtain ⟨o, v, hk⟩ := hh.sees hmeets
    obtain ⟨h', hrun, hconsistent⟩ := hh.copy hk
    exact ⟨0, h', fun _ _ => hrun, hconsistent⟩
  | assign k l =>
    obtain ⟨hk, hl, hne⟩ := hmeets
    obtain ⟨o, v, hk⟩ := hh.sees hk
    obtain ⟨p, source, hl⟩ := hh.sees hl
    obtain ⟨h', hrun, hconsistent⟩ := hh.assign hk hl (hne.imp_right fun hne => hne o hk.key)
    exact ⟨0, h', fun _ _ => hrun, hconsistent⟩
  | destroy k =>
    obtain ⟨o, v, hk⟩ := hh.sees hmeets
    obtain ⟨h', hrun, hconsistent⟩ := hh.destroy hk
    exact ⟨0, h', fun _ _ => hrun, hconsistent⟩
  | concat path key =>
    obtain ⟨o, v, hk⟩ := hh.sees hmeets.1
    obtain ⟨p, source, hl⟩ := hh.sees hmeets.2
    obtain ⟨h', hrun, hconsistent, -⟩ := hh.concat hk hl
    exact ⟨0, h', fun _ _ => hrun, hconsistent⟩
  | range k i j =>
    obtain ⟨o, v, hk⟩ := hh.sees hmeets
    obtain ⟨h', hrun, hconsistent⟩ := hh.range hk i j
    exact ⟨0, h', fun _ _ => hrun, hconsistent⟩
  | pop k n =>
    obtain ⟨o, v, hk⟩ := hh.sees hmeets
    obtain ⟨h', hrun, hconsistent⟩ := hh.pop hk n
    exact ⟨0, h', fun _ _ => hrun, hconsistent⟩
  | append k l =>
    obtain ⟨o, v, p, source, hk, hl, hcondition⟩ := hmeets
    by_cases hlk : l = k
    · subst hlk
      rw [if_pos rfl] at hcondition
      obtain ⟨h', hrun, hmade⟩ := append_self_made hh hk hcondition
      exact ⟨0, h', hrun, hmade.consistent (fun i _ => hh.shows_ i) plain_nil.valid⟩
    · rw [if_neg hlk] at hcondition
      obtain ⟨h', hrun, hconsistent⟩ := append_consistent hh hk hl hlk hcondition.1 hcondition.2
      exact ⟨_, h', hrun, hconsistent⟩
  | prepend k l =>
    obtain ⟨o, v, p, source, hk, hl, hcondition⟩ := hmeets
    by_cases hlk : l = k
    · subst hlk
      rw [if_pos rfl] at hcondition
      obtain ⟨h', hrun, hmade⟩ := prepend_self_made hh hk hcondition
      exact ⟨0, h', hrun, hmade.consistent (fun i _ => hh.shows_ i) plain_nil.valid⟩
    · rw [if_neg hlk] at hcondition
      obtain ⟨h', hrun, hconsistent⟩ := prepend_consistent hh hk hl hlk
        (hcondition.imp_right fun hboth => hboth.2)
      exact ⟨_, h', hrun, hconsistent⟩

theorem consistent_initial : initial.Consistent := by
  have husers : ∀ a, initial.users a = if a < 3 then 1 else 0 := by
    intro a
    rcases a with _ | _ | _ | a
    · rfl
    · rfl
    · rfl
    · rw [if_neg (by omega)]
      rfl
  refine ⟨⟨fun a => ?_, fun a => ?_, fun a ha => if_neg (Nat.not_lt.mpr ha)⟩, fun k o v hk hv => ?_⟩
  · rw [husers]
    show (if a < 3 then 2 else 0) = _ + if a < 3 then 1 else 0
    split <;> rfl
  · rcases a with _ | _ | _ | a
    · exact iff_of_true (some_ne_none _) (by decide)
    · exact iff_of_true (some_ne_none _) (by decide)
    · exact iff_of_true (some_ne_none _) (by decide)
    · have hzero : (if a + 3 < 3 then 2 else 0) = 0 := if_neg (by omega)
      exact iff_of_false (not_not.mpr rfl) (not_not.mpr hzero)
  · rcases k with _ | _ | _ | k
    · obtain rfl := some.inj hk
      obtain rfl := some.inj hv
      exact ⟨le_refl 0, le_refl 0, Nat.zero_le _, plain_nil.valid, fun _ => rfl⟩
    · obtain rfl := some.inj hk
      obtain rfl := some.inj hv
      refine ⟨Nat.zero_le _, le_refl 1, le_refl 1, ?_, nofun⟩
      have hplain : UniConfKey.Plain [[42]] := by decide
      exact hplain.valid
    · obtain rfl := some.inj hk
      obtain rfl := some.inj hv
      refine ⟨Nat.zero_le _, le_refl 1, le_refl 1, ?_, nofun⟩
      have hplain : UniConfKey.Plain [[46, 46, 46]] := by decide
      exact hplain.valid
    · cases hk

theorem Reached.consistent (hh : Reached h) : h.Consistent := by
  induction hh with
  | initial => exact consistent_initial
  | step op fuel _ hmeets hstep ih =>
    obtain ⟨fuel', h'', hrun, hconsistent⟩ := ih.step hmeets
    have heq := hrun (fuel + fuel' + 1) (by omega)
    rw [hstep (fuel + fuel' + 1) (by omega)] at heq
    rwa [some.inj heq]

/-- In every heap that is reached, `append` and `prepend` agree with the concatenation exactly
where they meet their conditions. -/
theorem edits_iff (hh : Reached h) (hK : h.value k = some K) (hL : h.value l = some L) :
    (Makes (fun fuel => h.append fuel k l) h k (UniConfKey.concat K L) ↔ h.AppendMeets k l) ∧
      (Makes (fun fuel => h.prepend fuel k l) h k (UniConfKey.concat L K) ↔
        h.PrependMeets k l) := by
  obtain ⟨o, v, hk, -, rfl⟩ := of_value hK
  obtain ⟨p, source, hl, -, rfl⟩ := of_value hL
  have hfix : ∀ condition : KeyFields → SegmentVector → KeyFields → SegmentVector → Prop,
      (∃ o v p source, Sees h k o v ∧ Sees h l p source ∧ condition o v p source) ↔
        condition o v p source := by
    intro condition
    constructor
    · rintro ⟨o', v', p', source', hk', hl', hcondition⟩
      obtain ⟨rfl, rfl⟩ := hk.unique hk'
      obtain ⟨rfl, rfl⟩ := hl.unique hl'
      exact hcondition
    · intro hcondition
      exact ⟨o, v, p, source, hk, hl, hcondition⟩
  rw [AppendMeets, PrependMeets, hfix, hfix]
  by_cases hlk : l = k
  · subst hlk
    obtain ⟨rfl, rfl⟩ := hk.unique hl
    rw [if_pos rfl, if_pos rfl]
    exact ⟨append_self_iff hh.consistent hk, prepend_self_iff hh.consistent hk⟩
  · rw [if_neg hlk, if_neg hlk]
    exact ⟨append_iff hh.consistent hk hl hlk, prepend_iff hh.consistent hk hl hlk⟩

theorem reached_slice : ∃ h, Reached h ∧ h.ref_count 3 = 1 ∧
    Sees h 4 ⟨3, 2, 4⟩ ⟨[[97], [98], [99], [100]], 4⟩ ∧
    Sees h 5 ⟨4, 0, 1⟩ ⟨[[120], [], [], []], 1⟩ := by
  have hstring : Reached _ := .step (.string 4 [97, 47, 98, 47, 99, 47, 100]) 0 .initial trivial
    fun _ _ => rfl
  have hrange : Reached _ := .step (.range 3 2 2147483647) 0 hstring (some_ne_none _)
    fun _ _ => rfl
  have hdestroy : Reached _ := .step (.destroy 3) 0 hrange (some_ne_none _) fun _ _ => rfl
  have hother : Reached _ := .step (.string 4 [120]) 0 hdestroy trivial fun _ _ => rfl
  exact ⟨_, hother, rfl, ⟨rfl, rfl⟩, ⟨rfl, rfl⟩⟩

theorem edits_iff_slice : ∃ h, h.AppendMeets 5 4 ∧
    (Makes (fun fuel => h.append fuel 5 4) h 5 [[120], [99], [100]] ↔ h.AppendMeets 5 4) ∧
      (Makes (fun fuel => h.prepend fuel 5 4) h 5 [[99], [100], [120]] ↔ h.PrependMeets 5 4) := by
  obtain ⟨h, hreached, hone, hk, hl⟩ := reached_slice
  refine ⟨h, ⟨_, _, _, _, hl, hk, ?_⟩, ?_⟩
  · rw [if_neg (by decide)]
    exact ⟨rfl, Or.inr (by decide : 1 + 2 ≤ max 4 4)⟩
  · exact edits_iff hreached (hl.value (by decide)) (hk.value (by decide))

/-- The slice of a store begins behind its start: both go beyond its end. -/
theorem edits_fail : ∃ h, Reached h ∧ h.value 4 = some [[99], [100]] ∧ h.value 5 = some [[120]] ∧
    (∀ n, 1 < n → h.append n 4 5 = none) ∧
    ¬ Makes (fun fuel => h.append fuel 4 5) h 4 [[99], [100], [120]] ∧
    ¬ Makes (fun fuel => h.prepend fuel 4 5) h 4 [[120], [99], [100]] := by
  obtain ⟨h, hreached, hone, hk, hl⟩ := reached_slice
  have hshared : ¬ h.ref_count 3 ≠ 1 := not_not.mpr hone
  have hfits : ¬ AppendFits ⟨3, 2, 4⟩ ⟨[[97], [98], [99], [100]], 4⟩ [[99], [100]] [[120]] := by
    show ¬ 4 + 1 ≤ 4
    decide
  have hfits' : ¬ PrependFits ⟨3, 2, 4⟩ ⟨[[97], [98], [99], [100]], 4⟩ [[99], [100]] [[120]] := by
    show ¬ (4 + 1 ≤ 4 ∨ 4 < 1 + 2 ∧ 2 = 0)
    decide
  refine ⟨h, hreached, hk.value (by decide), hl.value (by decide), ?_, ?_, ?_⟩
  · rcases append_cases hreached.consistent hk hl (by decide) with ⟨hmeets, -⟩ | ⟨-, hnone⟩
    · exact absurd hmeets (not_or.mpr ⟨hshared, hfits⟩)
    · exact hnone
  · intro hmakes
    have hmeets := (append_iff hreached.consistent hk hl (by decide)).mp hmakes
    exact (not_or.mpr ⟨hshared, hfits⟩) hmeets.2
  · intro hmakes
    rcases (prepend_iff hreached.consistent hk hl (by decide)).mp hmakes with hnil | hmeets
    · cases hnil
    · exact (not_or.mpr ⟨hshared, hfits'⟩) hmeets.2

end Runs

end KeyHeap

end WvStreams
