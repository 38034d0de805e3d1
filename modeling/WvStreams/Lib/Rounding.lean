import Mathlib.Algebra.Order.Floor.Ring
import Mathlib.Data.Rat.Floor
import Mathlib.Tactic.FieldSimp
import Mathlib.Tactic.Linarith
import Mathlib.Tactic.Ring

/-!
# Rounding to an integer

Four ways to round a number of an ordered field. A ratio of natural numbers with an even
denominator is rounded from the number of halves in it and what is left over (`round_halves`).
-/

namespace WvStreams.Lib

/-- Where a number between two integers goes; the two in the middle differ at the midpoint. -/
inductive Direction where
  | down
  | half_down
  | half_up
  | up

namespace Direction

section Field

variable {K : Type*} [Field K] [LinearOrder K] [IsStrictOrderedRing K] [FloorRing K]

def round (d : Direction) (x : K) : ℤ :=
  match d with
  | down => ⌊x⌋
  | half_down => ⌈x - 1 / 2⌉
  | half_up => ⌊x + 1 / 2⌋
  | up => ⌈x⌉

theorem le_round {d : Direction} {n : ℤ} {x : K} (h : (n : K) ≤ x) : n ≤ d.round x := by
  cases d with
  | down => exact Int.le_floor.mpr h
  | half_down =>
    apply Int.le_ceil_iff.mpr
    linarith
  | half_up =>
    apply Int.le_floor.mpr
    linarith
  | up =>
    apply Int.le_ceil_iff.mpr
    linarith

theorem round_le {d : Direction} {n : ℤ} {x : K} (h : x ≤ n) : d.round x ≤ n := by
  cases d with
  | down =>
    apply Int.floor_le_iff.mpr
    linarith
  | half_down =>
    apply Int.ceil_le.mpr
    linarith
  | half_up =>
    apply Int.floor_le_iff.mpr
    linarith
  | up => exact Int.ceil_le.mpr h

/-- What is rounded to `n` units of `g` times the size is rounded to `n` at least in these units. -/
theorem le_round_div {d : Direction} {n : ℤ} {g : ℕ} {x : K} (hg : 0 < g)
    (h : n * g ≤ d.round x) : n ≤ d.round (x / g) := by
  have hpos : (0 : K) < g := Nat.cast_pos.mpr hg
  have hone : (1 : K) ≤ g := by
    exact_mod_cast hg
  cases d with
  | down =>
    have hx := Int.le_floor.mp h
    push_cast at hx
    exact Int.le_floor.mpr ((le_div_iff₀ hpos).mpr hx)
  | half_down =>
    have hx := Int.le_ceil_iff.mp h
    push_cast at hx
    apply Int.le_ceil_iff.mpr
    rw [lt_sub_iff_add_lt, lt_div_iff₀ hpos]
    linarith
  | half_up =>
    have hx := Int.le_floor.mp h
    push_cast at hx
    apply Int.le_floor.mpr
    rw [← sub_le_iff_le_add, le_div_iff₀ hpos]
    linarith
  | up =>
    have hx := Int.le_ceil_iff.mp h
    push_cast at hx
    apply Int.le_ceil_iff.mpr
    rw [lt_div_iff₀ hpos]
    linarith

end Field

/-- What is added to the quotient: `odd` says that half a unit is left over, `rest` that something
is beside it. -/
def carry (d : Direction) (odd rest : Prop) [Decidable odd] [Decidable rest] : ℕ :=
  match d with
  | down => 0
  | half_down => if odd ∧ rest then 1 else 0
  | half_up => if odd then 1 else 0
  | up => if odd ∨ rest then 1 else 0

theorem carry_congr (d : Direction) {p q p' q' : Prop} [Decidable p] [Decidable q] [Decidable p']
    [Decidable q'] (hp : p ↔ p') (hq : q ↔ q') : d.carry p q = d.carry p' q' := by
  cases d <;> simp only [carry, hp, hq]

theorem round_parts (d : Direction) (q : ℕ) (odd : Prop) [Decidable odd] {y : ℚ} (hy : 0 ≤ y)
    (hsmall : y < 1 / 2) :
    d.round (q + (if odd then 1 / 2 else 0) + y) = (q + d.carry odd (y ≠ 0) : ℕ) := by
  have hpos : y ≠ 0 → 0 < y := fun hne => lt_of_le_of_ne hy hne.symm
  cases d with
  | down =>
    apply Int.floor_eq_iff.mpr
    by_cases hodd : odd <;> constructor <;> simp [carry, hodd] <;> linarith
  | half_down =>
    apply Int.ceil_eq_iff.mpr
    by_cases hodd : odd
    · by_cases hzero : y = 0
      · constructor <;> simp [carry, hodd, hzero]
      · have := hpos hzero
        constructor <;> simp [carry, hodd, hzero] <;> linarith
    · constructor <;> simp [carry, hodd] <;> linarith
  | half_up =>
    apply Int.floor_eq_iff.mpr
    by_cases hodd : odd <;> constructor <;> simp [carry, hodd] <;> linarith
  | up =>
    apply Int.ceil_eq_iff.mpr
    by_cases hodd : odd
    · constructor <;> simp [carry, hodd] <;> linarith
    · by_cases hzero : y = 0
      · constructor <;> simp [carry, hodd, hzero]
      · have := hpos hzero
        constructor <;> simp [carry, hodd, hzero] <;> linarith

/-- `2 * h` are one unit. -/
theorem round_halves (d : Direction) {t s h : ℕ} (hs : s < h) :
    d.round (((t * h + s : ℕ) : ℚ) / (2 * h : ℕ)) = (t / 2 + d.carry (t % 2 = 1) (s ≠ 0) : ℕ) := by
  have hh : (0 : ℚ) < h := by
    exact_mod_cast (by omega : 0 < h)
  have hs' : (s : ℚ) < h := by
    exact_mod_cast hs
  have hsmall : (s : ℚ) / (2 * h) < 1 / 2 := by
    rw [div_lt_div_iff₀ (by linarith) (by norm_num)]
    linarith
  have hhalf : ((t % 2 : ℕ) : ℚ) / 2 = if t % 2 = 1 then 1 / 2 else 0 := by
    rcases Nat.mod_two_eq_zero_or_one t with heven | hodd
    · simp [heven]
    · simp [hodd]
  have hx : ((t * h + s : ℕ) : ℚ) / (2 * h : ℕ) =
      (t / 2 : ℕ) + (if t % 2 = 1 then 1 / 2 else 0) + (s : ℚ) / (2 * h) := by
    have ht : (t : ℚ) = 2 * (t / 2 : ℕ) + (t % 2 : ℕ) := by
      exact_mod_cast (Nat.div_add_mod t 2).symm
    rw [← hhalf]
    push_cast [ht]
    field_simp
  rw [hx, round_parts d (t / 2) (t % 2 = 1) (by positivity) hsmall]
  have hrest : (s : ℚ) / (2 * h) ≠ 0 ↔ s ≠ 0 := by
    simp [hh.ne']
  rw [d.carry_congr Iff.rfl hrest]

end Direction

end WvStreams.Lib
