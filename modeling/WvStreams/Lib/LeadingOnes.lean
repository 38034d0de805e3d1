import Mathlib.Algebra.Ring.Nat
import Mathlib.Data.Nat.Find
import Mathlib.Tactic.Common

/-!
# Leading ones of a word

The bits of a word are counted from the top. `IsLeadingOnes v k` says that the longest run of ones
at the top has length `k`, and `topOnes w k` is the word whose ones are the first `k` bits.
-/

namespace WvStreams.Lib

open BitVec

variable {w : Nat}

/-- The first `k` bits are ones, and the next one, if there is one, is not. -/
structure IsLeadingOnes (v : BitVec w) (k : Nat) : Prop where
  le : k ≤ w
  ones : ∀ i < k, v.getMsbD i = true
  stop : v.getMsbD k = false

/-- A word with ones in its first `k` bits only. -/
def topOnes (w k : Nat) : BitVec w := ~~~((1#w <<< (w - k)) - 1#w)

theorem one_shiftLeft_sub_one {s : Nat} (hs : s ≤ w) :
    (1#w <<< s) - 1#w = BitVec.ofNat w (2 ^ s - 1) := by
  apply eq_of_toNat_eq
  rcases Nat.eq_zero_or_pos w with rfl | hw
  · obtain rfl : s = 0 := by omega
    rfl
  have hpow : 2 ^ s ≤ 2 ^ w := Nat.pow_le_pow_right (by omega) hs
  have hpos : 0 < 2 ^ s := Nat.two_pow_pos s
  have h1 : 1 % 2 ^ w = 1 := Nat.mod_eq_of_lt (Nat.one_lt_two_pow (by omega))
  rcases Nat.lt_or_eq_of_le hpow with hlt | heq
  · have hmod : 2 ^ s % 2 ^ w = 2 ^ s := Nat.mod_eq_of_lt hlt
    have hsum : 2 ^ w - 1 + 2 ^ s = (2 ^ s - 1) + 2 ^ w := by omega
    simp [toNat_sub, Nat.one_shiftLeft, h1, hmod, hsum]
  · have hsum : 2 ^ w - 1 < 2 ^ w := by omega
    simp [toNat_sub, Nat.one_shiftLeft, h1, heq, Nat.mod_eq_of_lt hsum]

@[simp] theorem getMsbD_topOnes {k : Nat} (hk : k ≤ w) (i : Nat) :
    (topOnes w k).getMsbD i = decide (i < k) := by
  rw [topOnes, one_shiftLeft_sub_one (Nat.sub_le w k)]
  by_cases hi : i < w
  · have hbit : w - 1 - i < w - k ↔ ¬ i < k := by omega
    have hlt : w - 1 - i < w := by omega
    rw [getMsbD_eq_getLsbD, getLsbD_not, getLsbD_ofNat,
      Nat.testBit_two_pow_sub_one]
    simp only [hi, hlt, hbit, decide_true, Bool.true_and, decide_not, Bool.not_not]
  · have hik : ¬ i < k := by omega
    simp [getMsbD, hi, hik]

theorem exists_leadingOnes (v : BitVec w) : ∃ k, IsLeadingOnes v k := by
  have hex : ∃ k, v.getMsbD k = false := ⟨w, by simp [getMsbD]⟩
  refine ⟨Nat.find hex, ?_, ?_, Nat.find_spec hex⟩
  · exact Nat.find_min' hex (by simp [getMsbD])
  · intro i hi
    simpa using Nat.find_min hex hi

theorem IsLeadingOnes.unique {v : BitVec w} {k l : Nat} (hk : IsLeadingOnes v k)
    (hl : IsLeadingOnes v l) : k = l := by
  rcases Nat.lt_trichotomy k l with h | h | h
  · have := hl.ones k h
    simp [hk.stop] at this
  · exact h
  · have := hk.ones l h
    simp [hl.stop] at this

end WvStreams.Lib
