import Mathlib.Algebra.Ring.Int.Defs
import Mathlib.Tactic.Common

/-!
# Integers of 64 bits

A word is `Int64.ofInt` of an integer, and the operations are those of the integers. They divide
and compare the integers where these fit in a word.
-/

namespace WvStreams.Lib

open Int64

def Fits (i : Int) : Prop := -2 ^ 63 ≤ i ∧ i < 2 ^ 63

theorem fits_toInt (x : Int64) : Fits x.toInt := ⟨x.le_toInt, x.toInt_lt⟩

namespace Fits

variable {i j : Int}

theorem toInt_ofInt (hi : Fits i) : (Int64.ofInt i).toInt = i :=
  toInt_ofInt_of_le hi.1 hi.2

theorem minValue_le (hi : Fits i) : minValue.toInt ≤ i := hi.1

theorem le_maxValue (hi : Fits i) : i ≤ maxValue.toInt := Int.le_of_lt_add_one hi.2

theorem ofInt_div (hi : Fits i) (hj : Fits j) :
    Int64.ofInt i / Int64.ofInt j = Int64.ofInt (i.tdiv j) :=
  (ofInt_tdiv hi.minValue_le hi.le_maxValue hj.minValue_le hj.le_maxValue).symm

theorem ofInt_mod (hi : Fits i) (hj : Fits j) :
    Int64.ofInt i % Int64.ofInt j = Int64.ofInt (i.tmod j) :=
  (ofInt_tmod hi.minValue_le hi.le_maxValue hj.minValue_le hj.le_maxValue).symm

theorem ofInt_lt (hi : Fits i) (hj : Fits j) : Int64.ofInt i < Int64.ofInt j ↔ i < j :=
  ofInt_lt_iff_lt hi.minValue_le hi.le_maxValue hj.minValue_le hj.le_maxValue

end Fits

theorem toInt_ofInt_over {i : Int} (hlow : 2 ^ 63 ≤ i) (hhigh : i < 2 ^ 64) :
    (Int64.ofInt i).toInt = i - 2 ^ 64 := by
  have hfits : Fits (i - 2 ^ 64) := by
    constructor <;> omega
  rw [← hfits.toInt_ofInt, toInt_inj, ofInt_sub]
  simp

theorem toInt_ofInt_under {i : Int} (hlow : -2 ^ 64 ≤ i) (hhigh : i < -2 ^ 63) :
    (Int64.ofInt i).toInt = i + 2 ^ 64 := by
  have hfits : Fits (i + 2 ^ 64) := by
    constructor <;> omega
  rw [← hfits.toInt_ofInt, toInt_inj, ofInt_add]
  simp

theorem ofInt_sub_one_ne (i : Int) : Int64.ofInt (i - 1) ≠ Int64.ofInt i := by
  intro h
  have hwrap : (i - 1).bmod Int64.size = i.bmod Int64.size := by
    simpa only [toInt_ofInt] using congrArg Int64.toInt h
  have hmod : (i - 1) % (Int64.size : Int) = i % (Int64.size : Int) := by
    rw [← Int.bmod_emod, hwrap, Int.bmod_emod]
  have hsize : (Int64.size : Int) = 18446744073709551616 := rfl
  rw [hsize] at hmod
  omega

theorem tdiv_of_neg {i k : Int} (hk : 0 < k) (hi : i < 0) :
    i.tdiv k = i / k + if i % k = 0 then 0 else 1 := by
  have hcond : (0 ≤ i ∨ k ∣ i) ↔ i % k = 0 := by
    rw [Int.dvd_iff_emod_eq_zero]
    omega
  rw [Int.tdiv_eq_ediv, Int.sign_eq_one_of_pos hk]
  simp only [hcond]

theorem tmod_of_neg {i k : Int} (hk : 0 < k) (hi : i < 0) :
    i.tmod k = i % k - if i % k = 0 then 0 else k := by
  have hcond : (0 ≤ i ∨ k ∣ i) ↔ i % k = 0 := by
    rw [Int.dvd_iff_emod_eq_zero]
    omega
  rw [Int.tmod_eq_emod]
  simp only [hcond]
  split <;> omega

theorem Fits.tmod {i k : Int} (hi : Fits i) : Fits (i.tmod k) := by
  have hle : (i.tmod k).natAbs ≤ i.natAbs := by
    rw [Int.natAbs_tmod]
    exact Nat.mod_le _ _
  obtain ⟨hlow, hhigh⟩ := hi
  rcases Int.le_total 0 i with hpos | hneg
  · have := Int.tmod_nonneg k hpos
    constructor <;> omega
  · have := Int.tmod_nonneg k (Int.neg_nonneg_of_nonpos hneg)
    rw [Int.neg_tmod] at this
    constructor <;> omega

end WvStreams.Lib
