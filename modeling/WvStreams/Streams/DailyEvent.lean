import Mathlib.Algebra.Order.Ring.Int
import Mathlib.Data.Int.ModEq
import Mathlib.Data.Int.ConditionallyCompleteOrder
import Mathlib.Data.Int.Interval
import Mathlib.Data.Nat.Find
import Mathlib.Data.Set.Card

/-!
# `WvDailyEvent`

`next_event` is a whole number of intervals behind the first hour of some day. The interval is
that part of a day rounded down, so that more than `num_per_day` of them go into a day unless
`num_per_day` divides the seconds of a day, and then there are more events than that, too
(`right_iff_dvd`).
-/

namespace WvStreams

def NUM_MINS_IN_DAY : Int := 24 * 60

def NUM_SECS_IN_DAY : Int := 60 * NUM_MINS_IN_DAY

/-- A time that is broken down. The date is the number of the day. -/
structure Tm where
  tm_day : Int
  tm_hour : Int
  tm_min : Int
  tm_sec : Int
  deriving DecidableEq

def localtime (offset t : Int) : Tm where
  tm_day := (t + offset) / 86400
  tm_hour := (t + offset) % 86400 / 3600
  tm_min := (t + offset) % 3600 / 60
  tm_sec := (t + offset) % 60

def mktime (offset : Int) (tm : Tm) : Int :=
  tm.tm_day * 86400 + tm.tm_hour * 3600 + tm.tm_min * 60 + tm.tm_sec - offset

/-- `set_num_per_day` keeps the number of events in range. -/
structure WvDailyEvent where
  first_hour : Int
  num_per_day : Int
  skip_first : Bool
  prev : Int
  not_until : Int
  nonneg : 0 ≤ num_per_day
  le_secs : num_per_day ≤ NUM_SECS_IN_DAY

namespace WvDailyEvent

/-- `wvstime` is `now`. -/
def set_num_per_day (e : WvDailyEvent) (now : Int) (_num_per_day : Int) : WvDailyEvent :=
  let num_per_day := min (if _num_per_day < 0 then 1 else _num_per_day) NUM_SECS_IN_DAY
  let max := if num_per_day ≠ 0 then NUM_SECS_IN_DAY / num_per_day else 6 * 60 * 60
  { e with
    num_per_day
    prev := now
    -- don't start until at least one period has gone by
    not_until := now + min max (6 * 60 * 60)
    nonneg := by
      have hsecs : (0 : Int) ≤ NUM_SECS_IN_DAY := by decide
      apply le_min _ hsecs
      split <;> omega
    le_secs := min_le_right _ _ }

def configure (e : WvDailyEvent) (now : Int) (_first_hour _num_per_day : Int) (_skip_first : Bool) :
    WvDailyEvent :=
  set_num_per_day { e with first_hour := _first_hour, skip_first := _skip_first } now
    (min _num_per_day NUM_MINS_IN_DAY)

def new (now : Int) (_first_hour _num_per_day : Int) (_skip_first : Bool) : WvDailyEvent :=
  configure ⟨_first_hour, 0, _skip_first, now, now, le_refl 0, by decide⟩ now _first_hour
    _num_per_day _skip_first

def interval (e : WvDailyEvent) : Int := NUM_SECS_IN_DAY / e.num_per_day

variable {e : WvDailyEvent}

theorem interval_pos (h : e.num_per_day ≠ 0) : 0 < e.interval := by
  have hpos : 0 < e.num_per_day := lt_of_le_of_ne e.nonneg (Ne.symm h)
  have hle : 1 * e.num_per_day ≤ NUM_SECS_IN_DAY := by
    rw [Int.one_mul]
    exact e.le_secs
  exact (Int.le_ediv_iff_mul_le hpos).mpr hle

/-- The loop of `next_event` while the first events are skipped. -/
def skipLoop (interval not_until : Int) (h : 0 < interval) (next : Int) : Int :=
  if next < not_until then skipLoop interval not_until h (next + interval) else next
termination_by (not_until - next).toNat

/-- When to start counting from: up to 24 hours in the past. -/
def startOf (offset : Int) (e : WvDailyEvent) : Int :=
  let start := e.prev + e.interval
  let tm := localtime offset start
  let tm :=
    if tm.tm_hour < e.first_hour then
      -- this time yesterday
      localtime offset (e.prev - NUM_SECS_IN_DAY + 1)
    else tm
  mktime offset { tm with tm_hour := e.first_hour, tm_min := 0, tm_sec := 0 }

/-- The daily event occurs each day at `first_hour` on the hour, or at some multiple of the interval
after that hour. None if an assertion fails. -/
def next_event (offset : Int) (e : WvDailyEvent) : Option Int :=
  if h : e.num_per_day = 0 then some 0
  else if e.prev = 0 then none
  else
    let start := startOf offset e
    let next := e.prev + e.interval
    let next :=
      if (next - start).tmod e.interval ≠ 0 then start + (next - start).tdiv e.interval * e.interval
      else next
    if next ≠ 0 ∧ 100000 < next then
      some (if e.skip_first then skipLoop e.interval e.not_until (interval_pos h) next else next)
    else none

def FirstHour (offset : Int) (e : WvDailyEvent) (t : Int) : Prop :=
  (t + offset) % 86400 = e.first_hour * 3600

/-- The days are counted from an hour of the day. -/
structure Hourly (e : WvDailyEvent) : Prop where
  nonneg : 0 ≤ e.first_hour
  le_last : e.first_hour ≤ 23

theorem mktime_localtime (offset t hour : Int) :
    mktime offset { localtime offset t with tm_hour := hour, tm_min := 0, tm_sec := 0 } =
      (t + offset) / 86400 * 86400 + hour * 3600 - offset := by
  simp only [mktime, localtime]
  omega

theorem startOf_spec (offset : Int) (hhour : Hourly e) (hpos : 0 < e.interval) :
    FirstHour offset e (startOf offset e) ∧ startOf offset e ≤ e.prev + e.interval := by
  obtain ⟨hnonneg, hlast⟩ := hhour
  have hsecs : NUM_SECS_IN_DAY = 86400 := rfl
  have hhour : (localtime offset (e.prev + e.interval)).tm_hour =
      (e.prev + e.interval + offset) % 86400 / 3600 := rfl
  rw [FirstHour, startOf, hsecs]
  by_cases hearly : (localtime offset (e.prev + e.interval)).tm_hour < e.first_hour
  · simp only [if_pos hearly, mktime_localtime]
    constructor <;> omega
  · rw [hhour] at hearly
    simp only [hhour, if_neg hearly, mktime_localtime]
    constructor <;> omega

/-- The next event is as far behind `start` as whole intervals go. -/
theorem next_event_spec (offset : Int) (hhour : Hourly e)
    (hnum : e.num_per_day ≠ 0) (hskip : e.skip_first = false) (hprev : 100000 < e.prev) :
    ∃ next start, next_event offset e = some next ∧ FirstHour offset e start ∧
      start ≡ next [ZMOD e.interval] ∧ e.prev < next ∧ next ≤ e.prev + e.interval := by
  have hpos := interval_pos hnum
  obtain ⟨hfirst, hle⟩ := startOf_spec offset hhour hpos
  have hzero : e.prev ≠ 0 := by omega
  rw [next_event, dif_neg hnum, if_neg hzero, hskip]
  generalize startOf offset e = start at hfirst hle ⊢
  have hahead : 0 ≤ e.prev + e.interval - start := by omega
  have hdiv := Int.tdiv_eq_ediv_of_nonneg (b := e.interval) hahead
  have hmod := Int.tmod_eq_emod_of_nonneg (b := e.interval) hahead
  have hsum := Int.mul_ediv_add_emod (e.prev + e.interval - start) e.interval
  have hnonneg := Int.emod_nonneg (e.prev + e.interval - start) hpos.ne'
  have hlt := Int.emod_lt_of_pos (e.prev + e.interval - start) hpos
  simp only [hdiv, hmod, Bool.false_eq_true, if_false]
  by_cases hwhole : (e.prev + e.interval - start) % e.interval = 0
  · have hvalid : e.prev + e.interval ≠ 0 ∧ 100000 < e.prev + e.interval := by omega
    have hsame : start ≡ e.prev + e.interval [ZMOD e.interval] :=
      Int.modEq_iff_dvd.mpr (Int.dvd_of_emod_eq_zero hwhole)
    rw [if_neg (not_not_intro hwhole), if_pos hvalid]
    exact ⟨_, start, rfl, hfirst, hsame, by omega, by omega⟩
  · rw [Int.mul_comm] at hsum
    have hsame : start ≡ start + (e.prev + e.interval - start) / e.interval * e.interval
        [ZMOD e.interval] := Int.modEq_iff_dvd.mpr (by simp)
    generalize (e.prev + e.interval - start) / e.interval * e.interval = whole at hsum hsame ⊢
    have hvalid : start + whole ≠ 0 ∧ 100000 < start + whole := by omega
    rw [if_pos hwhole, if_pos hvalid]
    exact ⟨_, start, rfl, hfirst, hsame, by omega, by omega⟩

def at_ (e : WvDailyEvent) (prev : Int) : WvDailyEvent := { e with prev }

def event (offset : Int) (e : WvDailyEvent) : Nat → Option Int
  | 0 => some e.prev
  | k + 1 => (event offset e k).bind fun prev => next_event offset (e.at_ prev)

def events (offset : Int) (e : WvDailyEvent) : Set Int := {t | ∃ k, event offset e (k + 1) = some t}

/-- The events are after each other, at most an interval apart, and in each day counted from the
first hour there are `num_per_day` of them, one at its beginning. -/
structure Right (offset : Int) (e : WvDailyEvent) : Prop where
  later : ∀ k, ∃ prev next, event offset e k = some prev ∧ event offset e (k + 1) = some next ∧
    prev < next ∧ next ≤ prev + e.interval
  daily : ∀ day, e.prev < day → FirstHour offset e day →
    (events offset e ∩ Set.Ico day (day + 86400)).ncard = e.num_per_day ∧ day ∈ events offset e

/-- The events one after the other, each a whole number of intervals behind a first hour. -/
structure Follows (offset : Int) (e : WvDailyEvent) (time : Nat → Int) : Prop where
  start : time 0 = e.prev
  event_eq : ∀ k, event offset e k = some (time k)
  lt : ∀ k, time k < time (k + 1)
  le : ∀ k, time (k + 1) ≤ time k + e.interval
  behind : ∀ k, ∃ start, FirstHour offset e start ∧ start ≡ time (k + 1) [ZMOD e.interval]

theorem exists_follows (offset : Int) (hhour : Hourly e)
    (hnum : e.num_per_day ≠ 0) (hskip : e.skip_first = false) (hprev : 100000 < e.prev) :
    ∃ time, Follows offset e time := by
  have hvalid : ∀ k, ∃ t, event offset e k = some t ∧ 100000 < t := by
    intro k
    induction k with
    | zero => exact ⟨e.prev, rfl, hprev⟩
    | succ k ih =>
      obtain ⟨t, ht, hlarge⟩ := ih
      obtain ⟨next, -, hnext, -, -, hlater, -⟩ :=
        next_event_spec offset (e := e.at_ t) ⟨hhour.nonneg, hhour.le_last⟩ hnum hskip
          hlarge
      refine ⟨next, ?_, lt_trans hlarge hlater⟩
      rw [event, ht, Option.bind_some, hnext]
  choose time htime hlarge using hvalid
  have hstep : ∀ k, ∃ start, FirstHour offset e start ∧ start ≡ time (k + 1) [ZMOD e.interval] ∧
      time k < time (k + 1) ∧ time (k + 1) ≤ time k + e.interval := by
    intro k
    obtain ⟨next, start, hnext, hfirst, hsame, hlater, hle⟩ :=
      next_event_spec offset (e := e.at_ (time k)) ⟨hhour.nonneg, hhour.le_last⟩ hnum
        hskip (hlarge k)
    have heq : time (k + 1) = next := by
      have hevent := htime (k + 1)
      rw [event, htime k, Option.bind_some, hnext] at hevent
      exact (Option.some.inj hevent).symm
    rw [heq]
    exact ⟨start, hfirst, hsame, hlater, hle⟩
  refine ⟨time, (Option.some.inj (htime 0)).symm, htime, fun k => ?_, fun k => ?_, fun k => ?_⟩
  · obtain ⟨-, -, -, hlater, -⟩ := hstep k
    exact hlater
  · obtain ⟨-, -, -, -, hle⟩ := hstep k
    exact hle
  · obtain ⟨start, hfirst, hsame, -, -⟩ := hstep k
    exact ⟨start, hfirst, hsame⟩

namespace Follows

variable {offset : Int} {e : WvDailyEvent} {time : Nat → Int} (h : Follows offset e time)

include h

theorem strictMono : StrictMono time := strictMono_nat_of_lt_succ h.lt

theorem mem_events {t : Int} : t ∈ events offset e ↔ ∃ k, time (k + 1) = t := by
  show (∃ k, event offset e (k + 1) = some t) ↔ _
  simp only [h.event_eq, Option.some.injEq]

theorem le_add (k j : Nat) : time (k + j) ≤ time k + j * e.interval := by
  induction j with
  | zero => simp
  | succ j ih =>
    have hle := h.le (k + j)
    have hsum : ((j + 1 : Nat) : Int) * e.interval = j * e.interval + e.interval := by
      rw [Nat.cast_succ, Int.add_mul, Int.one_mul]
    rw [hsum]
    exact hle.trans (by omega)

theorem start_add_le (k : Nat) : e.prev + k ≤ time k := by
  induction k with
  | zero => simp [h.start]
  | succ k ih =>
    have hlt := h.lt k
    push_cast
    omega

theorem exists_time {t : Int} (ht : e.prev < t)
    (hsame : ∀ k, time (k + 1) ≡ t [ZMOD e.interval]) : ∃ k, time (k + 1) = t := by
  have hreached : ∃ k, t ≤ time k := by
    refine ⟨(t - e.prev).toNat, ?_⟩
    have hle := h.start_add_le (t - e.prev).toNat
    omega
  have hfound := Nat.find_spec hreached
  have hbefore := fun j => @Nat.find_min _ _ hreached j
  generalize Nat.find hreached = k at hfound hbefore
  cases k with
  | zero =>
    rw [h.start] at hfound
    omega
  | succ k =>
    refine ⟨k, ?_⟩
    have hlow := hbefore k (Nat.lt_succ_self k)
    have hgap := h.le k
    -- the event is less than an interval later than `t`
    have hzero := Int.emod_eq_zero_of_dvd (hsame k).symm.dvd
    rw [Int.emod_eq_of_lt (by omega) (by omega)] at hzero
    omega

end Follows

variable {offset : Int} {e : WvDailyEvent}

theorem FirstHour.modEq {s t : Int} (hs : FirstHour offset e s)
    (ht : FirstHour offset e t) : s ≡ t [ZMOD 86400] := by
  have hsum : s + offset ≡ t + offset [ZMOD 86400] := hs.trans ht.symm
  exact Int.ModEq.add_right_cancel' offset hsum

theorem exists_firstHour (offset : Int) (hhour : Hourly e) :
    ∃ day, e.prev < day ∧ FirstHour offset e day := by
  obtain ⟨hnonneg, hlast⟩ := hhour
  refine ⟨((e.prev + offset) / 86400 + 1) * 86400 + e.first_hour * 3600 - offset, ?_, ?_⟩
  · omega
  · rw [FirstHour]
    omega

theorem Follows.inter_eq {time : Nat → Int}
    (h : Follows offset e time) (hnum : e.num_per_day ≠ 0) (hdvd : e.num_per_day ∣ NUM_SECS_IN_DAY)
    {day : Int} (hday : e.prev < day) (hfirst : FirstHour offset e day) :
    events offset e ∩ Set.Ico day (day + 86400) =
      ((Finset.range e.num_per_day.toNat).image fun i : Nat => day + i * e.interval : Finset Int) := by
  have hpos := interval_pos hnum
  have hmul : e.interval * e.num_per_day = 86400 := Int.ediv_mul_cancel hdvd
  have hsecs : e.interval ∣ 86400 := Dvd.intro _ hmul
  have hsame : ∀ k, time (k + 1) ≡ day [ZMOD e.interval] := by
    intro k
    obtain ⟨start, hstart, hmod⟩ := h.behind k
    exact hmod.symm.trans ((hstart.modEq hfirst).of_dvd hsecs)
  ext t
  rw [Set.mem_inter_iff, h.mem_events, Set.mem_Ico, Finset.mem_coe, Finset.mem_image]
  constructor
  · rintro ⟨⟨k, rfl⟩, hlow, hhigh⟩
    obtain ⟨i, hi⟩ := Int.modEq_iff_add_fac.mp (hsame k).symm
    have hi0 : 0 ≤ i := by
      by_contra hneg
      have hmono := Int.mul_le_mul_of_nonneg_left (show i ≤ -1 by omega) hpos.le
      omega
    have hin : i < e.num_per_day := by
      by_contra hge
      have hmono := Int.mul_le_mul_of_nonneg_left (Int.not_lt.mp hge) hpos.le
      omega
    refine ⟨i.toNat, Finset.mem_range.mpr (by omega), ?_⟩
    rw [Int.toNat_of_nonneg hi0, hi, Int.mul_comm]
  · rintro ⟨i, hi, rfl⟩
    have hin : (i : Int) < e.num_per_day := by
      have hlt := Finset.mem_range.mp hi
      omega
    have hlow : 0 ≤ (i : Int) * e.interval := Int.mul_nonneg (Int.natCast_nonneg i) hpos.le
    have hhigh := Int.mul_lt_mul_of_pos_right hin hpos
    rw [Int.mul_comm e.num_per_day, hmul] at hhigh
    refine ⟨h.exists_time (by omega) fun k => (hsame k).trans ?_, by omega, by omega⟩
    exact Int.modEq_iff_dvd.mpr (by simp)

theorem Follows.lt_ncard {time : Nat → Int} (h : Follows offset e time) (hnum : e.num_per_day ≠ 0)
    (hless : e.num_per_day * e.interval < 86400) {day : Int} (hmem : day ∈ events offset e) :
    e.num_per_day < (events offset e ∩ Set.Ico day (day + 86400)).ncard := by
  obtain ⟨k, hk⟩ := h.mem_events.mp hmem
  have hpos := interval_pos hnum
  have hnonneg := e.nonneg
  have hsub : (((Finset.range (e.num_per_day.toNat + 1)).image fun j => time (k + 1 + j) :
      Finset Int) : Set Int) ⊆ events offset e ∩ Set.Ico day (day + 86400) := by
    intro t ht
    obtain ⟨j, hj, rfl⟩ := Finset.mem_image.mp (Finset.mem_coe.mp ht)
    have hjn : (j : Int) ≤ e.num_per_day := by
      have hlt := Finset.mem_range.mp hj
      omega
    have hhigh := h.le_add (k + 1) j
    have hmono := Int.mul_le_mul_of_nonneg_right hjn hpos.le
    have hlow : time (k + 1) ≤ time (k + 1 + j) := h.strictMono.monotone (Nat.le_add_right _ _)
    refine ⟨h.mem_events.mpr ⟨k + j, ?_⟩, ?_, ?_⟩
    · rw [Nat.add_right_comm]
    · omega
    · omega
  have hfinite : (events offset e ∩ Set.Ico day (day + 86400)).Finite :=
    (Set.finite_Ico day (day + 86400)).inter_of_right _
  have hle := Set.ncard_le_ncard hsub hfinite
  have hinj : Function.Injective fun j => time (k + 1 + j) :=
    fun i j hij => Nat.add_left_cancel (h.strictMono.injective hij)
  rw [Set.ncard_coe_finset, Finset.card_image_of_injective _ hinj, Finset.card_range] at hle
  omega

theorem dvd_of_right (hhour : Hourly e)
    (hnum : e.num_per_day ≠ 0) (hskip : e.skip_first = false) (hprev : 100000 < e.prev)
    (hright : Right offset e) : e.num_per_day ∣ NUM_SECS_IN_DAY := by
  obtain ⟨time, htime⟩ := exists_follows offset hhour hnum hskip hprev
  obtain ⟨day, hday, hfirst⟩ := exists_firstHour offset hhour
  obtain ⟨hcount, hmem⟩ := hright.daily day hday hfirst
  by_contra hdvd
  have hle : e.num_per_day * e.interval ≤ 86400 := Int.mul_ediv_self_le hnum
  have hne : e.num_per_day * e.interval ≠ 86400 := fun heq => hdvd (Dvd.intro _ heq)
  have hlt := htime.lt_ncard hnum (lt_of_le_of_ne hle hne) hmem
  omega

/-- The schedule is right exactly if the seconds of a day are a multiple of `num_per_day`. -/
theorem right_iff_dvd {offset : Int} {e : WvDailyEvent} (hhour : Hourly e) (hnum : e.num_per_day ≠ 0)
    (hskip : e.skip_first = false) (hprev : 100000 < e.prev) :
    Right offset e ↔ e.num_per_day ∣ NUM_SECS_IN_DAY := by
  constructor
  · exact dvd_of_right hhour hnum hskip hprev
  · intro hdvd
    obtain ⟨time, htime⟩ := exists_follows offset hhour hnum hskip hprev
    have hpos := interval_pos hnum
    refine ⟨fun k => ⟨_, _, htime.event_eq k, htime.event_eq (k + 1), htime.lt k, htime.le k⟩, ?_⟩
    intro day hday hfirst
    have hinter := htime.inter_eq hnum hdvd hday hfirst
    have hinj : Function.Injective fun i : Nat => day + i * e.interval := by
      intro i j hij
      have hmul : (i : Int) * e.interval = j * e.interval := by
        simpa using hij
      exact Int.natCast_inj.mp (Int.eq_of_mul_eq_mul_right hpos.ne' hmul)
    constructor
    · rw [hinter, Set.ncard_coe_finset, Finset.card_image_of_injective _ hinj, Finset.card_range]
      exact Int.toNat_of_nonneg e.nonneg
    · have hfirstEvent : day ∈ events offset e ∩ Set.Ico day (day + 86400) := by
        have hnonneg := e.nonneg
        rw [hinter, Finset.mem_coe, Finset.mem_image]
        exact ⟨0, Finset.mem_range.mpr (by omega), by simp⟩
      exact hfirstEvent.1

theorem right_iff_dvd_four : Right 3600 (new 1000000 10 4 false) :=
  (right_iff_dvd ⟨by decide, by decide⟩ (by decide) rfl (by decide)).mpr ⟨21600, rfl⟩

/-- Seven intervals of 12342 seconds are 6 seconds less than a day, and the eighth event of a day
comes then. -/
theorem not_right_seven : ¬ ∀ offset now first_hour num_per_day prev, 0 ≤ first_hour → first_hour ≤ 23 →
    1 ≤ num_per_day → num_per_day ≤ 1440 → 100000 < prev →
      Right offset ((new now first_hour num_per_day false).at_ prev) := by
  intro h
  have hright := h 0 0 0 7 1000000 (by decide) (by decide) (by decide) (by decide) (by decide)
  have hdvd := dvd_of_right ⟨by decide, by decide⟩ (by decide) rfl (by decide) hright
  exact absurd hdvd (by decide)

end WvDailyEvent

end WvStreams
