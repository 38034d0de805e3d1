import WvStreams.Lib.Int64

/-!
# `WvTime`

`normalize` takes the whole seconds out of the microseconds. For negative microseconds it takes one
more than the truncated quotient, which is one too many when they are whole seconds
(`normalize_ofInt`). The sums of `msecadd` and `tvdiff` are normalized in the same way.
-/

namespace WvStreams

open Lib Int64

structure WvTime where
  tv_sec : Int64
  tv_usec : Int64
  deriving DecidableEq

namespace WvTime

/-- The microseconds of the time, which `operator long long` gives. -/
def usecs (t : WvTime) : Int := t.tv_sec.toInt * 1000000 + t.tv_usec.toInt

def normalize (tv : WvTime) : WvTime :=
  let tv_sec := tv.tv_sec +
    if tv.tv_usec < 0 then tv.tv_usec / 1000000 - 1 else tv.tv_usec / 1000000
  let tv_usec := tv.tv_usec % 1000000
  { tv_sec := tv_sec, tv_usec := tv_usec + if tv_usec < 0 then 1000000 else 0 }

def msecadd (a : WvTime) (msec : Int64) : WvTime :=
  normalize
    { tv_sec := a.tv_sec + msec / 1000
      tv_usec := a.tv_usec + (msec % 1000) * 1000 }

def tvdiff (a b : WvTime) : WvTime :=
  let c : WvTime := ⟨a.tv_sec - b.tv_sec, a.tv_usec⟩
  let c : WvTime :=
    if b.tv_usec > a.tv_usec then ⟨c.tv_sec - 1, c.tv_usec + 1000000⟩ else c
  normalize { c with tv_usec := c.tv_usec - b.tv_usec }

/-- Negative microseconds that are whole seconds. -/
def Slips (usec : Int) : Prop := usec < 0 ∧ usec % 1000000 = 0

instance (usec : Int) : Decidable (Slips usec) := inferInstanceAs (Decidable (_ ∧ _))

theorem fits_zero : Fits 0 := by
  constructor <;> omega

theorem fits_million : Fits 1000000 := by
  constructor <;> omega

theorem ofInt_million : (1000000 : Int64) = .ofInt 1000000 := rfl

theorem normalize_ofInt (sec : Int) {usec : Int} (hu : Fits usec) :
    normalize ⟨.ofInt sec, .ofInt usec⟩ =
      ⟨.ofInt (sec + usec / 1000000 - if Slips usec then 1 else 0), .ofInt (usec % 1000000)⟩ := by
  have hneg : Int64.ofInt usec < 0 ↔ usec < 0 := hu.ofInt_lt fits_zero
  have hdiv : Int64.ofInt usec / 1000000 = .ofInt (usec.tdiv 1000000) := by
    rw [ofInt_million]
    exact hu.ofInt_div fits_million
  have hmod : Int64.ofInt usec % 1000000 = .ofInt (usec.tmod 1000000) := by
    rw [ofInt_million]
    exact hu.ofInt_mod fits_million
  have hless : Int64.ofInt (usec.tmod 1000000) < 0 ↔ usec.tmod 1000000 < 0 :=
    hu.tmod.ofInt_lt fits_zero
  have hone : (1 : Int64) = .ofInt 1 := rfl
  unfold normalize
  simp only [hneg, hdiv, hmod, hless]
  rcases Int.lt_or_le usec 0 with hlow | hhigh
  · have hslips : Slips usec ↔ usec % 1000000 = 0 := and_iff_right hlow
    simp only [if_pos hlow, tdiv_of_neg (by omega : (0 : Int) < 1000000) hlow,
      tmod_of_neg (by omega : (0 : Int) < 1000000) hlow, hslips]
    by_cases hwhole : usec % 1000000 = 0
    · simp [hwhole, Int.add_sub_assoc]
    · have hless : usec % 1000000 - 1000000 < 0 := by omega
      simp only [if_neg hwhole, if_pos hless]
      rw [hone, ofInt_million, ← ofInt_sub, ← ofInt_add, ← ofInt_add]
      congr 2 <;> omega
  · have hslips : ¬ Slips usec := fun h => absurd h.1 (Int.not_lt.mpr hhigh)
    have hrest : usec.tmod 1000000 = usec % 1000000 := Int.tmod_eq_emod_of_nonneg hhigh
    have hpos : ¬ usec % 1000000 < 0 := by omega
    rw [if_neg (Int.not_lt.mpr hhigh), hrest, if_neg hpos, if_neg hslips,
      Int.tdiv_eq_ediv_of_nonneg hhigh]
    simp

structure Normal (t : WvTime) : Prop where
  nonneg : 0 ≤ t.tv_usec.toInt
  lt : t.tv_usec.toInt < 1000000

/-- The normalized time of so many microseconds. -/
structure Exact (t : WvTime) (usecs : Int) : Prop extends Normal t where
  value : t.usecs = usecs

theorem eq_ofInt (t : WvTime) : t = ⟨.ofInt t.tv_sec.toInt, .ofInt t.tv_usec.toInt⟩ := by
  simp

theorem exact_normalize_iff {sec usec : Int} (hu : Fits usec) (hs : Fits (sec + usec / 1000000)) :
    Exact (normalize ⟨.ofInt sec, .ofInt usec⟩) (sec * 1000000 + usec) ↔ ¬ Slips usec := by
  have hrest : (Int64.ofInt (usec % 1000000)).toInt = usec % 1000000 := by
    apply Fits.toInt_ofInt
    constructor <;> omega
  rw [normalize_ofInt sec hu]
  constructor
  · rintro ⟨-, hvalue⟩ hslips
    simp only [usecs, hrest, if_pos hslips] at hvalue
    have hsame : (Int64.ofInt (sec + usec / 1000000 - 1)).toInt = sec + usec / 1000000 := by
      omega
    rw [← hs.toInt_ofInt, toInt_inj] at hsame
    rw [hs.toInt_ofInt] at hsame
    exact ofInt_sub_one_ne _ hsame
  · intro hslips
    rw [if_neg hslips, Int.sub_zero]
    refine ⟨⟨?_, ?_⟩, ?_⟩
    · change 0 ≤ (Int64.ofInt (usec % 1000000)).toInt
      omega
    · change (Int64.ofInt (usec % 1000000)).toInt < 1000000
      omega
    · simp only [usecs, hrest, hs.toInt_ofInt]
      omega

def longlong (t : WvTime) : Int64 := t.tv_sec * 1000000 + t.tv_usec

theorem toInt_longlong {t : WvTime} (h : Fits t.usecs) : t.longlong.toInt = t.usecs := by
  have hvalue : t.longlong = .ofInt t.usecs := by
    rw [longlong, usecs, ofInt_add, ofInt_mul, ofInt_toInt, ofInt_toInt]
    rfl
  rw [hvalue, h.toInt_ofInt]

theorem normalize_eq_iff {t u : WvTime} (h : t.usecs = u.usecs) :
    t.normalize = u.normalize ↔ (Slips t.tv_usec.toInt ↔ Slips u.tv_usec.toInt) := by
  have hsec : t.tv_sec.toInt + t.tv_usec.toInt / 1000000 =
      u.tv_sec.toInt + u.tv_usec.toInt / 1000000 := by
    simp only [usecs] at h
    omega
  have husec : t.tv_usec.toInt % 1000000 = u.tv_usec.toInt % 1000000 := by
    simp only [usecs] at h
    omega
  rw [t.eq_ofInt, u.eq_ofInt, normalize_ofInt _ (fits_toInt _), normalize_ofInt _ (fits_toInt _),
    husec, hsec]
  simp only [ofInt_toInt]
  generalize u.tv_sec.toInt + u.tv_usec.toInt / 1000000 = sec
  by_cases h1 : Slips t.tv_usec.toInt <;> by_cases h2 : Slips u.tv_usec.toInt
  · simp only [h1, h2]
  · simp only [h1, h2, if_true, if_false, Int.sub_zero, mk.injEq, and_true, not_true_eq_false,
      iff_false]
    exact ofInt_sub_one_ne sec
  · simp only [h1, h2, if_true, if_false, Int.sub_zero, mk.injEq, and_true, not_true_eq_false,
      iff_false, false_iff]
    exact (ofInt_sub_one_ne sec).symm
  · simp only [h1, h2]

def sumUsec (a : WvTime) (msec : Int64) : Int := a.tv_usec.toInt + msec.toInt.tmod 1000 * 1000

def sumSec (a : WvTime) (msec : Int64) : Int := a.tv_sec.toInt + msec.toInt.tdiv 1000

def diffUsec (a b : WvTime) : Int :=
  a.tv_usec.toInt - b.tv_usec.toInt + if a.tv_usec < b.tv_usec then 1000000 else 0

def diffSec (a b : WvTime) : Int :=
  a.tv_sec.toInt - b.tv_sec.toInt - if a.tv_usec < b.tv_usec then 1 else 0

theorem msecadd_eq (a : WvTime) (msec : Int64) :
    a.msecadd msec = normalize ⟨.ofInt (a.sumSec msec), .ofInt (a.sumUsec msec)⟩ := by
  have hthousand : (1000 : Int64) = .ofInt 1000 := rfl
  have hfits : Fits 1000 := by
    constructor <;> omega
  have hdiv : msec / 1000 = .ofInt (msec.toInt.tdiv 1000) := by
    rw [hthousand, ← (fits_toInt msec).ofInt_div hfits, ofInt_toInt]
  have hmod : msec % 1000 = .ofInt (msec.toInt.tmod 1000) := by
    rw [hthousand, ← (fits_toInt msec).ofInt_mod hfits, ofInt_toInt]
  rw [msecadd, hdiv, hmod, hthousand, sumSec, sumUsec, ofInt_add, ofInt_add,
    ofInt_mul, ofInt_toInt, ofInt_toInt]

theorem tvdiff_eq (a b : WvTime) :
    a.tvdiff b = normalize ⟨.ofInt (a.diffSec b), .ofInt (a.diffUsec b)⟩ := by
  unfold tvdiff diffSec diffUsec
  by_cases h : a.tv_usec < b.tv_usec
  · have hborrow : a.tv_usec.toInt - b.tv_usec.toInt + 1000000 =
        a.tv_usec.toInt + 1000000 - b.tv_usec.toInt := by omega
    simp only [h, if_true, hborrow]
    simp [ofInt_million]
  · simp [h]

theorem exact_msecadd_iff {a : WvTime} {msec : Int64} (hu : Fits (a.sumUsec msec))
    (hs : Fits (a.sumSec msec + a.sumUsec msec / 1000000)) :
    Exact (a.msecadd msec) (a.usecs + msec.toInt * 1000) ↔ ¬ Slips (a.sumUsec msec) := by
  have hvalue : a.usecs + msec.toInt * 1000 = a.sumSec msec * 1000000 + a.sumUsec msec := by
    have hparts := Int.mul_tdiv_add_tmod msec.toInt 1000
    simp only [usecs, sumSec, sumUsec]
    omega
  rw [msecadd_eq, hvalue]
  exact exact_normalize_iff hu hs

theorem exact_tvdiff_iff {a b : WvTime} (hu : Fits (a.diffUsec b))
    (hs : Fits (a.diffSec b + a.diffUsec b / 1000000)) :
    Exact (a.tvdiff b) (a.usecs - b.usecs) ↔ ¬ Slips (a.diffUsec b) := by
  have hvalue : a.usecs - b.usecs = a.diffSec b * 1000000 + a.diffUsec b := by
    simp only [usecs, diffSec, diffUsec]
    split <;> omega
  rw [tvdiff_eq, hvalue]
  exact exact_normalize_iff hu hs

/-- A time is normalized exactly unless its microseconds are negative whole seconds. -/
theorem exactly_iff (t u : WvTime) (msec : Int64) :
    (Fits (t.tv_sec.toInt + t.tv_usec.toInt / 1000000) →
      (Exact t.normalize t.usecs ↔ ¬ Slips t.tv_usec.toInt)) ∧ (t.usecs = u.usecs →
      (t.normalize = u.normalize ↔ (Slips t.tv_usec.toInt ↔ Slips u.tv_usec.toInt))) ∧
    (Fits (t.sumUsec msec) → Fits (t.sumSec msec + t.sumUsec msec / 1000000) →
      (Exact (t.msecadd msec) (t.usecs + msec.toInt * 1000) ↔ ¬ Slips (t.sumUsec msec))) ∧
    (Fits (t.diffUsec u) → Fits (t.diffSec u + t.diffUsec u / 1000000) →
      (Exact (t.tvdiff u) (t.usecs - u.usecs) ↔ ¬ Slips (t.diffUsec u))) := by
  refine ⟨fun hfits => ?_, normalize_eq_iff, exact_msecadd_iff, exact_tvdiff_iff⟩
  have hexact := exact_normalize_iff (fits_toInt t.tv_usec) hfits
  rwa [← t.eq_ofInt] at hexact

def early : WvTime := ⟨0, -500000⟩

theorem exact_early :
    (Exact early.normalize early.usecs ↔ ¬ Slips early.tv_usec.toInt) ∧
    (early.normalize = normalize ⟨-1, 500000⟩ ↔ (Slips early.tv_usec.toInt ↔ Slips 500000)) ∧
    (Exact (early.msecadd 1500) (early.usecs + 1500 * 1000) ↔ ¬ Slips (early.sumUsec 1500)) ∧
    (Exact (early.tvdiff ⟨-1, 500000⟩) (early.usecs - usecs ⟨-1, 500000⟩) ↔
      ¬ Slips (early.diffUsec ⟨-1, 500000⟩)) := by
  obtain ⟨hnormalize, hsame, hadd, hdiff⟩ := exactly_iff early ⟨-1, 500000⟩ 1500
  refine ⟨hnormalize ?_, hsame ?_, hadd ?_ ?_, hdiff ?_ ?_⟩
  · exact ⟨by decide, by decide⟩
  · decide
  all_goals exact ⟨by decide, by decide⟩

/-- Five seconds less a million microseconds become three seconds. -/
theorem not_exact :
    ¬ ∀ tv : WvTime, Fits (tv.tv_sec.toInt + tv.tv_usec.toInt / 1000000) →
      Exact tv.normalize tv.usecs := by
  intro h
  have hvalue := (h ⟨5, -1000000⟩ ⟨by decide, by decide⟩).value
  exact absurd hvalue (by decide)

end WvTime

end WvStreams
