import WvStreams.Time.WvTime

/-!
# `msecdiff`

The seconds and the microseconds are subtracted and divided one by one. Where the differences have
opposite signs the quotient of the microseconds is chopped away from that of the whole difference
(`msecdiff_eq_iff`).
-/

namespace WvStreams

open Lib Int64

namespace WvTime

def INT_MAX : Int := 2147483647

def INT_MIN : Int := -2147483648

def msecs (a b : WvTime) : Int64 :=
  let secdiff := a.tv_sec - b.tv_sec
  let usecdiff := a.tv_usec - b.tv_usec
  secdiff * 1000 + usecdiff / 1000

def msecdiff (a b : WvTime) : Int64 :=
  let msecs := msecs a b
  if msecs > .ofInt INT_MAX then .ofInt INT_MAX
  else if msecs < .ofInt INT_MIN then .ofInt INT_MIN
  else msecs

def clamp (i : Int) : Int := max INT_MIN (min i INT_MAX)

def Unclamped (i : Int) : Prop := INT_MIN ≤ i ∧ i ≤ INT_MAX

/-- The time lies between `b` and `a`. -/
def Between (b t a : WvTime) : Prop :=
  (b.usecs ≤ a.usecs → t.usecs ≤ a.usecs) ∧ (a.usecs ≤ b.usecs → a.usecs ≤ t.usecs)

structure Chopped (a b : WvTime) : Prop where
  value : (a.msecdiff b).toInt = clamp ((a.usecs - b.usecs).tdiv 1000)
  antisymm : Unclamped (a.msecs b).toInt → Unclamped (b.msecs a).toInt →
    a.msecdiff b = -b.msecdiff a
  never_passes : Between b (b.msecadd (a.msecdiff b)) a

/-- The differences have opposite signs, and the one of the microseconds is no whole number of
milliseconds. -/
def Apart (secdiff usecdiff : Int) : Prop :=
  (0 < secdiff ∧ usecdiff < 0 ∨ secdiff < 0 ∧ 0 < usecdiff) ∧ usecdiff % 1000 ≠ 0

/-- The difference is put to an end of the range. -/
def Far (usecs : Int) : Prop := INT_MAX * 1000 ≤ usecs ∨ usecs ≤ INT_MIN * 1000

theorem tdiv_cases (i : Int) {k : Int} (hk : 0 < k) :
    (0 ≤ i → i.tdiv k = i / k) ∧ (i < 0 → i.tdiv k = i / k + if i % k = 0 then 0 else 1) :=
  ⟨fun hi => Int.tdiv_eq_ediv_of_nonneg hi, fun hi => tdiv_of_neg hk hi⟩

theorem tdiv_parts {s u : Int} (hlow : -1000000 < u) (hhigh : u < 1000000) :
    (¬ Apart s u → (s * 1000000 + u).tdiv 1000 = s * 1000 + u.tdiv 1000) ∧
    (Apart s u → 0 < s → (s * 1000000 + u).tdiv 1000 = s * 1000 + u.tdiv 1000 - 1) ∧
    (Apart s u → s < 0 → (s * 1000000 + u).tdiv 1000 = s * 1000 + u.tdiv 1000 + 1) := by
  have hk : (0 : Int) < 1000 := by omega
  obtain ⟨h1, h2⟩ := tdiv_cases u hk
  obtain ⟨h3, h4⟩ := tdiv_cases (s * 1000000 + u) hk
  unfold Apart
  refine ⟨?_, ?_, ?_⟩
  · intro h
    rcases Int.lt_or_le u 0 with hu | hu <;> rcases Int.lt_or_le (s * 1000000 + u) 0 with hs | hs
    all_goals grind
  · rintro h hs
    grind
  · rintro h hs
    grind

/-- The seconds and the microseconds of two normalized times, with the milliseconds in a word. -/
structure Differ (a b : WvTime) (s u : Int) : Prop where
  first : Normal a
  second : Normal b
  sec : s = a.tv_sec.toInt - b.tv_sec.toInt
  usec : u = a.tv_usec.toInt - b.tv_usec.toInt
  fits : Fits (s * 1000)

variable {a b : WvTime} {s u : Int}

theorem msecs_eq (h : Differ a b s u) : a.msecs b = .ofInt (s * 1000 + u.tdiv 1000) := by
  have hthousand : (1000 : Int64) = .ofInt 1000 := rfl
  have hfits : Fits 1000 := by
    constructor <;> omega
  have husec : Fits u := by
    obtain ⟨⟨h1, h2⟩, ⟨h3, h4⟩, -, hu, -⟩ := h
    constructor <;> omega
  rw [ofInt_add, ofInt_mul, ← husec.ofInt_div hfits, h.sec, h.usec, ofInt_sub,
    ofInt_sub, ← hthousand]
  simp [msecs]

theorem toInt_msecdiff (a b : WvTime) : (a.msecdiff b).toInt = clamp (a.msecs b).toInt := by
  have hmax : Fits INT_MAX := by
    constructor <;> decide
  have hmin : Fits INT_MIN := by
    constructor <;> decide
  have hover : a.msecs b > .ofInt INT_MAX ↔ INT_MAX < (a.msecs b).toInt := by
    rw [gt_iff_lt, lt_iff_toInt_lt, hmax.toInt_ofInt]
  have hunder : a.msecs b < .ofInt INT_MIN ↔ (a.msecs b).toInt < INT_MIN := by
    rw [lt_iff_toInt_lt, hmin.toInt_ofInt]
  unfold msecdiff clamp
  simp only [hover, hunder]
  have hle : INT_MIN ≤ INT_MAX := by decide
  split
  · rw [hmax.toInt_ofInt]
    omega
  · split
    · rw [hmin.toInt_ofInt]
      omega
    · omega

theorem value_iff (h : Differ a b s u) :
    (a.msecdiff b).toInt = clamp ((a.usecs - b.usecs).tdiv 1000) ↔
      Fits (s * 1000 + u.tdiv 1000) ∧ (Apart s u → Far (a.usecs - b.usecs)) := by
  have hdiff : a.usecs - b.usecs = s * 1000000 + u := by
    simp only [usecs, h.sec, h.usec]
    omega
  have hlow : -1000000 < u := by
    have := h.first.nonneg
    have := h.second.lt
    have := h.usec
    omega
  have hhigh : u < 1000000 := by
    have := h.first.lt
    have := h.second.nonneg
    have := h.usec
    omega
  have hquot : -1000 < u.tdiv 1000 ∧ u.tdiv 1000 < 1000 := by
    obtain ⟨h1, h2⟩ := tdiv_cases u (by omega : (0 : Int) < 1000)
    grind
  obtain ⟨hwhole, hpos, hneg⟩ := tdiv_parts (s := s) hlow hhigh
  have hmax : INT_MAX = 2147483647 := rfl
  have hmin : INT_MIN = -2147483648 := rfl
  obtain ⟨hsecLow, hsecHigh⟩ := h.fits
  rw [toInt_msecdiff, msecs_eq h, hdiff]
  by_cases hfits : Fits (s * 1000 + u.tdiv 1000)
  · rw [hfits.toInt_ofInt, and_iff_right hfits]
    by_cases hapart : Apart s u
    · rw [forall_prop_of_true hapart]
      unfold Far clamp
      rcases hapart.1 with ⟨hs, hu⟩ | ⟨hs, hu⟩
      · have he := hpos hapart hs
        have hd := (tdiv_cases (s * 1000000 + u) (by omega : (0 : Int) < 1000)).1 (by omega)
        omega
      · have he := hneg hapart hs
        have hd := (tdiv_cases (s * 1000000 + u) (by omega : (0 : Int) < 1000)).2 (by omega)
        split at hd <;> omega
    · rw [hwhole hapart]
      simp [hapart]
  · -- the sum is the only one that can overflow, by less than a thousand
    have hnear : s * 1000 + u.tdiv 1000 - 1 ≤ (s * 1000000 + u).tdiv 1000 ∧
        (s * 1000000 + u).tdiv 1000 ≤ s * 1000 + u.tdiv 1000 + 1 := by
      by_cases hapart : Apart s u
      · rcases hapart.1 with ⟨hs, hu⟩ | ⟨hs, hu⟩
        · have := hpos hapart hs
          omega
        · have := hneg hapart hs
          omega
      · have := hwhole hapart
        omega
    simp only [hfits, false_and, iff_false]
    unfold Fits at hfits
    unfold clamp
    rcases Int.lt_or_le (s * 1000 + u.tdiv 1000) 0 with hunder | hover
    · rw [toInt_ofInt_under (by omega) (by omega)]
      omega
    · rw [toInt_ofInt_over (by omega) (by omega)]
      omega

theorem msecdiff_antisymm (hab : Differ a b s u) (hba : Differ b a (-s) (-u))
    (h : Unclamped (a.msecs b).toInt) (h' : Unclamped (b.msecs a).toInt) :
    a.msecdiff b = -b.msecdiff a := by
  have hclamp : ∀ {i : Int}, Unclamped i → clamp i = i := by
    intro i hi
    unfold clamp Unclamped at *
    omega
  have hself : a.msecdiff b = a.msecs b := by
    rw [← toInt_inj, toInt_msecdiff, hclamp h]
  have hself' : b.msecdiff a = b.msecs a := by
    rw [← toInt_inj, toInt_msecdiff, hclamp h']
  have hneg : -s * 1000 + (-u).tdiv 1000 = -(s * 1000 + u.tdiv 1000) := by
    rw [Int.neg_tdiv]
    omega
  rw [hself, hself', msecs_eq hab, msecs_eq hba, hneg, Int64.ofInt_neg, Int64.neg_neg]

theorem usecs_msecadd {b : WvTime} (hb : Normal b) {msec : Int64} {t t' : WvTime} (ht : Normal t)
    (ht' : Normal t') (hlow : t.usecs ≤ b.usecs + msec.toInt * 1000)
    (hhigh : b.usecs + msec.toInt * 1000 ≤ t'.usecs) :
    (b.msecadd msec).usecs = b.usecs + msec.toInt * 1000 := by
  have hparts := Int.mul_tdiv_add_tmod msec.toInt 1000
  have hrest : -1000 < msec.toInt.tmod 1000 ∧ msec.toInt.tmod 1000 < 1000 :=
    ⟨Int.lt_tmod_of_pos _ (by omega), Int.tmod_lt_of_pos _ (by omega)⟩
  obtain ⟨hb0, hb1⟩ := hb
  have hsum : Fits (b.sumUsec msec) := by
    unfold sumUsec
    constructor <;> omega
  have hslips : ¬ Slips (b.sumUsec msec) := by
    unfold Slips sumUsec
    omega
  have hfits : Fits (b.sumSec msec + b.sumUsec msec / 1000000) := by
    obtain ⟨ht0, ht1⟩ := ht
    obtain ⟨ht0', ht1'⟩ := ht'
    obtain ⟨hsec, -⟩ := fits_toInt t.tv_sec
    obtain ⟨-, hsec'⟩ := fits_toInt t'.tv_sec
    unfold usecs at hlow hhigh
    unfold sumSec sumUsec
    constructor <;> omega
  exact ((exact_msecadd_iff hsum hfits).mpr hslips).value

theorem between_of_value (h : Differ a b s u)
    (hvalue : (a.msecdiff b).toInt = clamp ((a.usecs - b.usecs).tdiv 1000)) :
    Between b (b.msecadd (a.msecdiff b)) a := by
  obtain ⟨hpos, hneg⟩ := tdiv_cases (a.usecs - b.usecs) (by omega : (0 : Int) < 1000)
  have hmax : INT_MAX = 2147483647 := rfl
  have hmin : INT_MIN = -2147483648 := rfl
  unfold clamp at hvalue
  rcases Int.lt_or_le (a.usecs - b.usecs) 0 with hless | hmore
  · have hquot := hneg hless
    have hsmall : a.usecs - b.usecs ≤ (a.msecdiff b).toInt * 1000 ∧ (a.msecdiff b).toInt ≤ 0 := by
      split at hquot <;> omega
    have hsum : (b.msecadd (a.msecdiff b)).usecs = b.usecs + (a.msecdiff b).toInt * 1000 :=
      usecs_msecadd h.second h.first h.second (by omega) (by omega)
    constructor <;> intro <;> omega
  · have hquot := hpos hmore
    have hsmall : (a.msecdiff b).toInt * 1000 ≤ a.usecs - b.usecs ∧ 0 ≤ (a.msecdiff b).toInt := by
      omega
    have hsum : (b.msecadd (a.msecdiff b)).usecs = b.usecs + (a.msecdiff b).toInt * 1000 :=
      usecs_msecadd h.second h.second h.first (by omega) (by omega)
    constructor <;> intro <;> omega

/-- The difference of the seconds in milliseconds is in a word, and the sum with the quotient of the
microseconds is. -/
theorem chopped_iff (a b : WvTime) (ha : Normal a) (hb : Normal b)
    (hfits : Fits ((a.tv_sec.toInt - b.tv_sec.toInt) * 1000)) :
    Chopped a b ↔ Fits ((a.tv_sec.toInt - b.tv_sec.toInt) * 1000 +
        (a.tv_usec.toInt - b.tv_usec.toInt).tdiv 1000) ∧
      (Apart (a.tv_sec.toInt - b.tv_sec.toInt) (a.tv_usec.toInt - b.tv_usec.toInt) →
        Far (a.usecs - b.usecs)) := by
  have hab : Differ a b _ _ := ⟨ha, hb, rfl, rfl, hfits⟩
  rw [← value_iff hab]
  constructor
  · exact Chopped.value
  · intro hvalue
    refine ⟨hvalue, ?_, between_of_value hab hvalue⟩
    apply msecdiff_antisymm hab
    obtain ⟨hlow, hhigh⟩ := hfits
    refine ⟨hb, ha, by omega, by omega, ?_⟩
    constructor <;> omega

/-- One second after half a millisecond. -/
theorem chopped_second :
    Chopped ⟨1, 500⟩ ⟨0, 0⟩ ↔ Fits (((1 : Int64).toInt - (0 : Int64).toInt) * 1000 +
        ((500 : Int64).toInt - (0 : Int64).toInt).tdiv 1000) ∧
      (Apart ((1 : Int64).toInt - (0 : Int64).toInt) ((500 : Int64).toInt - (0 : Int64).toInt) →
        Far (usecs ⟨1, 500⟩ - usecs ⟨0, 0⟩)) :=
  chopped_iff ⟨1, 500⟩ ⟨0, 0⟩ ⟨by decide, by decide⟩ ⟨by decide, by decide⟩
    ⟨by decide, by decide⟩

/-- A second less a microsecond counts as a full second. -/
theorem not_chopped :
    ¬ ∀ a b : WvTime, Normal a → Normal b →
      Fits ((a.tv_sec.toInt - b.tv_sec.toInt) * 1000) → Chopped a b := by
  intro h
  have hvalue := (h ⟨1, 0⟩ ⟨0, 1⟩ ⟨by decide, by decide⟩ ⟨by decide, by decide⟩
    ⟨by decide, by decide⟩).value
  exact absurd hvalue (by decide)

end WvTime

end WvStreams
