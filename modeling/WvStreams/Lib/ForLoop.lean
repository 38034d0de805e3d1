import Mathlib.Algebra.BigOperators.Group.Finset.Basic

/-!
# Loops that count

A loop over the first numbers whose body may fail. `forLoop_inv` is its invariant rule, and
`forLoop_sum` that of a loop that adds up.
-/

namespace WvStreams.Lib

variable {β : Type*}

/-- The state after the turns for `0` to `n - 1`, or none once a turn fails. -/
def forLoop (body : Nat → β → Option β) : Nat → β → Option β
  | 0, b => some b
  | n + 1, b => (forLoop body n b).bind (body n)

theorem forLoop_inv {body : Nat → β → Option β} (Inv : Nat → β → Prop) {n : Nat} {b : β}
    (hb : Inv 0 b) (hbody : ∀ i < n, ∀ b, Inv i b → ∃ b', body i b = some b' ∧ Inv (i + 1) b') :
    ∃ b', forLoop body n b = some b' ∧ Inv n b' := by
  induction n with
  | zero => exact ⟨b, rfl, hb⟩
  | succ n ih =>
    obtain ⟨b', hloop, hinv⟩ := ih fun i hi => hbody i (Nat.lt_succ_of_lt hi)
    obtain ⟨b'', hturn, hinv'⟩ := hbody n (Nat.lt_succ_self n) b' hinv
    refine ⟨b'', ?_, hinv'⟩
    rw [forLoop, hloop, Option.bind_some, hturn]

theorem forLoop_sum [AddCommMonoid β] {f : Nat → Option β} {g : Nat → β} {n : Nat}
    (hf : ∀ i < n, f i = some (g i)) :
    forLoop (fun i c => (f i).map (c + ·)) n 0 = some (∑ i ∈ Finset.range n, g i) := by
  obtain ⟨c, hloop, rfl⟩ := @forLoop_inv β (fun i c => (f i).map (c + ·))
    (fun i c => c = ∑ j ∈ Finset.range i, g j) n 0 (Finset.sum_range_zero g).symm
    (fun i hi c hc => ⟨c + g i, by rw [hf i hi]; rfl, by rw [Finset.sum_range_succ, hc]⟩)
  exact hloop

end WvStreams.Lib
