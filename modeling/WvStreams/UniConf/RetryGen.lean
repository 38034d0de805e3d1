import Mathlib.Data.Int.ConditionallyCompleteOrder
import Mathlib.Order.ConditionallyCompleteLattice.Basic
import WvStreams.Time.WvTime
import WvStreams.UniConf.Filter.FilterGen

/-!
# `UniRetryGen`

Operations reach an inner generator as long as it is ok, and make a new one when there is none and
it is time to. The time of the next attempt is set in three ways. After a disconnection it is counted
from then; after a generator that is not ok it is counted from the time that the attempt was due, so
that a late attempt is followed by another one too early; and when no generator is made the time is
not set at all. `setv` and `recursiveiterator` reach the inner generator without a test. Where this
does no harm the interval is kept and what is reached was ok (`respects`).
-/

namespace WvStreams

open Lib List Option WvTime

/-- What `wvtime` gives, call by call. -/
structure Clock where
  time : Nat → WvTime
  normal : ∀ n, (time n).Normal
  nonneg : ∀ n, 0 ≤ (time n).usecs
  lt : ∀ n, (time n).usecs < 2 ^ 63
  mono : Monotone fun n => (time n).usecs

theorem Clock.fits (clock : Clock) (n : Nat) : Fits (clock.time n).usecs :=
  ⟨Int.le_trans (by decide) (clock.nonneg n), clock.lt n⟩

/-- The inner generator, and whether it is ok. -/
structure Inner (σ : Type) where
  state : σ
  ok : Bool

/-- A call of `wvcreate` gives no generator or one that is ok or not; an inner generator is given
up; or an operation reaches the inner generator, and began with one that was ok or not. -/
inductive UniRetryGen.Event where
  | attempt (now : WvTime) (created : Option Bool)
  | disconnect (now : WvTime)
  | reach (began : Option Bool)

/-- The generator, with how often the clock was read and a record of what happened. -/
structure UniRetryGen (σ : Type) where
  inner : Option (Inner σ)
  next_reconnect_attempt : WvTime
  clock_reads : Nat
  events : List UniRetryGen.Event

namespace UniRetryGen

variable {σ ρ : Type}

/-- What stays the same over time. -/
structure Setup (σ : Type) where
  gen : IUniConfGen σ
  clock : Clock
  retry_interval_ms : Int64

/-- What happens around an operation: what `wvcreate` makes if it is called, what the callback
does, and whether the inner generator stops being ok before or while it is used. -/
structure Around (σ : Type) where
  created : Option (Inner σ)
  reconnect_callback : UniRetryGen σ → UniRetryGen σ
  stops_before_use : Bool
  stops_in_use : Bool

/-! ## The functions -/

def stop (stops : Bool) (s : UniRetryGen σ) : UniRetryGen σ :=
  if stops then { s with inner := s.inner.map fun inner => { inner with ok := false } } else s

def now (st : Setup σ) (s : UniRetryGen σ) : WvTime := st.clock.time s.clock_reads

def attempted (st : Setup σ) (created : Option (Inner σ)) (s : UniRetryGen σ) : UniRetryGen σ :=
  { s with
    clock_reads := s.clock_reads + 1
    events := s.events ++ [.attempt (s.now st) (created.map Inner.ok)] }

def maybe_reconnect (st : Setup σ) (around : Around σ) (s : UniRetryGen σ) : UniRetryGen σ :=
  if s.inner.isNone then
    if ¬ (s.now st).longlong < s.next_reconnect_attempt.longlong then
      let r := s.attempted st around.created
      match around.created with
      | none => r
      | some gen =>
        if gen.ok then around.reconnect_callback { r with inner := some gen }
        else { r with
          next_reconnect_attempt := r.next_reconnect_attempt.msecadd st.retry_interval_ms }
    else { s with clock_reads := s.clock_reads + 1 }
  else s

def lost (s : UniRetryGen σ) : Bool := s.inner.any fun inner => !inner.ok

def maybe_disconnect (st : Setup σ) (s : UniRetryGen σ) : UniRetryGen σ :=
  if s.lost then
    { inner := none
      next_reconnect_attempt := (s.now st).msecadd st.retry_interval_ms
      clock_reads := s.clock_reads + 1
      events := s.events ++ [.disconnect (s.now st)] }
  else s

def filter_isok (s : UniRetryGen σ) : Bool := s.inner.any Inner.ok

/-- A function of `UniFilterGen`, which is passed on to the inner generator if there is one. -/
def reach (s began : UniRetryGen σ) (f : σ → σ × ρ) (null : ρ) : UniRetryGen σ × ρ :=
  match s.inner with
  | none => (s, null)
  | some inner =>
    let (state, result) := f inner.state
    ({ s with
        inner := some { inner with state := state }
        events := s.events ++ [.reach (began.inner.map Inner.ok)] }, result)

/-- The state in which an operation goes on after `maybe_reconnect`. -/
def ready (st : Setup σ) (around : Around σ) (s : UniRetryGen σ) : UniRetryGen σ :=
  stop around.stops_before_use (s.maybe_reconnect st around)

def finish (st : Setup σ) (around : Around σ) (r : UniRetryGen σ × ρ) : UniRetryGen σ × ρ :=
  (maybe_disconnect st (stop around.stops_in_use r.1), r.2)

/-- An operation that is passed on if the inner generator is ok. -/
def guarded (st : Setup σ) (around : Around σ) (f : σ → σ × ρ) (null other : ρ)
    (s : UniRetryGen σ) : UniRetryGen σ × ρ :=
  let r := s.ready st around
  finish st around (if r.filter_isok then r.reach s f null else (r, other))

section Operations

variable (st : Setup σ) (around : Around σ) (s : UniRetryGen σ)

def commit : UniRetryGen σ := (guarded st around (fun i => (st.gen.commit i, ())) () () s).1

def refresh : UniRetryGen σ × Bool := guarded st around st.gen.refresh false false s

/-- The `prefetch` of `UniConfGen` does nothing. -/
def prefetch : UniRetryGen σ := (guarded st around (fun i => (i, ())) () () s).1

def flush_buffers : UniRetryGen σ := s

def get (key : UniConfKey) : UniRetryGen σ × WvString :=
  guarded st around (fun i => (i, st.gen.get key i)) none (if key = [] then some [] else none) s

def set (key : UniConfKey) (value : WvString) : UniRetryGen σ :=
  (guarded st around (fun i => (st.gen.set key value i, ())) () () s).1

/-- It is inherited from `UniFilterGen`. -/
def setv (pairs : List UniConfPair) : UniRetryGen σ :=
  (s.reach s (fun i => (st.gen.setv pairs i, ())) ()).1

def exists_ (key : UniConfKey) : UniRetryGen σ × Bool :=
  guarded st around (fun i => (i, st.gen.exists_ key i)) false (key = []) s

def haschildren (key : UniConfKey) : UniRetryGen σ × Bool :=
  guarded st around (fun i => (i, st.gen.haschildren key i)) false false s

def isok : UniRetryGen σ × Bool :=
  let r := s.ready st around
  finish st around (r, r.filter_isok)

def iterator (key : UniConfKey) : UniRetryGen σ × Option (List (Segment × WvString)) :=
  guarded st around (fun i => (i, st.gen.iterator key i)) none none s

/-- There is no test whether the inner generator is ok. -/
def recursiveiterator (depth : Nat) (key : UniConfKey) :
    UniRetryGen σ × Option (List (UniConfKey × WvString)) :=
  finish st around
    ((s.ready st around).reach s (fun i => (i, some (st.gen.recursiveiterator depth key i))) none)

end Operations

/-! ## Runs -/

inductive Call where
  | commit
  | refresh
  | prefetch
  | flush_buffers
  | get (key : UniConfKey)
  | set (key : UniConfKey) (value : WvString)
  | setv (pairs : List UniConfPair)
  | exists_ (key : UniConfKey)
  | haschildren (key : UniConfKey)
  | isok
  | iterator (key : UniConfKey)
  | recursiveiterator (depth : Nat) (key : UniConfKey)

def perform (st : Setup σ) (around : Around σ) : Call → UniRetryGen σ → UniRetryGen σ
  | .commit, s => s.commit st around
  | .refresh, s => (s.refresh st around).1
  | .prefetch, s => s.prefetch st around
  | .flush_buffers, s => s.flush_buffers
  | .get key, s => (s.get st around key).1
  | .set key value, s => s.set st around key value
  | .setv pairs, s => s.setv st pairs
  | .exists_ key, s => (s.exists_ st around key).1
  | .haschildren key, s => (s.haschildren st around key).1
  | .isok, s => (s.isok st around).1
  | .iterator key, s => (s.iterator st around key).1
  | .recursiveiterator depth key, s => (s.recursiveiterator st around depth key).1

/-- An operation, before which the inner generator may stop being ok, and the operations that the
callback calls if it is called. -/
inductive Op (σ : Type) where
  | mk (stops : Bool) (call : Call) (created : Option (Inner σ)) (callback : List (Op σ))
    (stops_before_use stops_in_use : Bool)

mutual

def Op.run (st : Setup σ) : Op σ → UniRetryGen σ → UniRetryGen σ
  | ⟨stops, call, created, callback, before_use, in_use⟩, s =>
    perform st ⟨created, runAll st callback, before_use, in_use⟩ call (stop stops s)

def runAll (st : Setup σ) : List (Op σ) → UniRetryGen σ → UniRetryGen σ
  | [], s => s
  | op :: ops, s => runAll st ops (op.run st s)

end

/-- The members are initialized. -/
def init (st : Setup σ) : UniRetryGen σ where
  inner := none
  next_reconnect_attempt := st.clock.time 0
  clock_reads := 1
  events := []

def create (st : Setup σ) (created : Option (Inner σ)) (callback : List (Op σ)) : UniRetryGen σ :=
  maybe_reconnect st ⟨created, runAll st callback, false, false⟩ (init st)

/-! ## The interval -/

/-- The time from which the interval has to pass. -/
def Event.waits : Event → Option WvTime
  | .attempt now created => if created = some true then none else some now
  | .disconnect now => some now
  | .reach _ => none

def Event.attempts : Event → Option WvTime
  | .attempt now _ => some now
  | .disconnect _ => none
  | .reach _ => none

/-- The interval passes before each attempt, and an inner generator that is reached was ok. -/
structure Respects (st : Setup σ) (s : UniRetryGen σ) : Prop where
  apart : s.events.Pairwise fun e e' => ∀ t ∈ e.waits, ∀ t' ∈ e'.attempts,
    t.usecs + st.retry_interval_ms.toInt * 1000 ≤ t'.usecs
  reached_ok : ∀ e ∈ s.events, e ≠ .reach (some false)

/-- There is no interval to wait for, or it ends at a time that can be compared. -/
def Ends (st : Setup σ) (t : WvTime) : Prop :=
  st.retry_interval_ms.toInt ≤ 0 ∨ t.usecs + st.retry_interval_ms.toInt * 1000 < 2 ^ 63

/-- There is no interval to wait for, or the attempt gives a generator and is made just when it is
due. -/
def Timely (st : Setup σ) (created : Option (Inner σ)) (s : UniRetryGen σ) : Prop :=
  st.retry_interval_ms.toInt ≤ 0 ∨
    created.isSome ∧ s.next_reconnect_attempt = s.now st ∧ Ends st (s.now st)

def Fails (st : Setup σ) (created : Option (Inner σ)) (s : UniRetryGen σ) : Prop :=
  s.inner = none ∧ ¬ (s.now st).longlong < s.next_reconnect_attempt.longlong ∧
    created.any Inner.ok = false

/-- `maybe_reconnect` meets the condition, and so does what the callback calls. -/
structure ReconnectMeets (st : Setup σ) (around : Around σ) (Meets : UniRetryGen σ → Prop)
    (s : UniRetryGen σ) : Prop where
  timely : Fails st around.created s → Timely st around.created s
  callback_meets : s.inner = none → ∀ gen, around.created = some gen → gen.ok = true →
    Meets { s.attempted st around.created with inner := some gen }

/-- So do `maybe_reconnect` and `maybe_disconnect` in an operation. -/
structure Passes (st : Setup σ) (around : Around σ) (Meets : UniRetryGen σ → Prop)
    (s : UniRetryGen σ) : Prop where
  reconnect : ReconnectMeets st around Meets s
  disconnect : (stop around.stops_in_use (s.ready st around)).lost = true →
    Ends st ((s.ready st around).now st)

def CallMeets (st : Setup σ) (around : Around σ) (Meets : UniRetryGen σ → Prop) :
    Call → UniRetryGen σ → Prop
  | .flush_buffers, _ => True
  | .setv _, s => s.lost = false
  | .recursiveiterator _ _, s => s.lost = false ∧ Passes st around Meets s
  | _, s => Passes st around Meets s

mutual

def Op.Meets (st : Setup σ) : Op σ → UniRetryGen σ → Prop
  | ⟨stops, call, created, callback, before_use, in_use⟩, s =>
    CallMeets st ⟨created, runAll st callback, before_use, in_use⟩ (MeetsAll st callback) call
      (stop stops s)

/-- Each operation meets the condition in the state that it comes to. -/
def MeetsAll (st : Setup σ) : List (Op σ) → UniRetryGen σ → Prop
  | [], _ => True
  | op :: ops, s => op.Meets st s ∧ MeetsAll st ops (op.run st s)

end

def CreateMeets (st : Setup σ) (created : Option (Inner σ)) (callback : List (Op σ)) : Prop :=
  ReconnectMeets st ⟨created, runAll st callback, false, false⟩ (MeetsAll st callback) (init st)

/-! ## The invariant -/

/-- The interval has passed when the next attempt is due. -/
structure Good (st : Setup σ) (s : UniRetryGen σ) : Prop extends Respects st s where
  past : ∀ e ∈ s.events, ∀ t ∈ e.waits, t.usecs ≤ (s.now st).usecs
  scheduled : 0 < st.retry_interval_ms.toInt → ∀ e ∈ s.events, ∀ t ∈ e.waits,
    t.usecs + st.retry_interval_ms.toInt * 1000 ≤ s.next_reconnect_attempt.longlong.toInt

variable {st : Setup σ} {around : Around σ} {Meets : UniRetryGen σ → Prop} {s : UniRetryGen σ}

theorem now_le (st : Setup σ) (s : UniRetryGen σ) :
    (s.now st).usecs ≤ (st.clock.time (s.clock_reads + 1)).usecs :=
  st.clock.mono (Nat.le_succ _)

theorem now_fits (st : Setup σ) (s : UniRetryGen σ) : Fits (s.now st).usecs := st.clock.fits _

theorem longlong_msecadd (hpos : 0 < st.retry_interval_ms.toInt) (hends : Ends st (s.now st)) :
    ((s.now st).msecadd st.retry_interval_ms).longlong.toInt =
      (s.now st).usecs + st.retry_interval_ms.toInt * 1000 := by
  have hend := hends.resolve_left (Int.not_le.mpr hpos)
  have hnonneg : 0 ≤ (s.now st).usecs := st.clock.nonneg _
  have hnormal : (s.now st).Normal := st.clock.normal _
  obtain ⟨hlow, hhigh⟩ := hnormal
  have hparts := Int.mul_tdiv_add_tmod st.retry_interval_ms.toInt 1000
  have hrest := Int.tmod_nonneg 1000 hpos.le
  have hrest' := Int.tmod_lt_of_pos st.retry_interval_ms.toInt (b := 1000) (by decide)
  have hexact : ((s.now st).msecadd st.retry_interval_ms).usecs =
      (s.now st).usecs + st.retry_interval_ms.toInt * 1000 := by
    refine ((exact_msecadd_iff ?_ ?_).mpr fun hslips => ?_).value
    · constructor <;> simp only [sumUsec] <;> omega
    · simp only [usecs] at hend hnonneg
      constructor <;> simp only [sumSec, sumUsec] <;> omega
    · have hneg := hslips.1
      simp only [sumUsec] at hneg
      omega
  rw [toInt_longlong, hexact]
  rw [hexact]
  exact ⟨by omega, hend⟩

theorem Good.change (h : Good st s) (inner : Option (Inner σ)) :
    Good st { s with inner := inner } :=
  ⟨⟨h.apart, h.reached_ok⟩, h.past, h.scheduled⟩

theorem good_stop (h : Good st s) (stops : Bool) : Good st (stop stops s) := by
  cases stops with
  | false => exact h
  | true => exact h.change _

theorem Good.read (h : Good st s) : Good st { s with clock_reads := s.clock_reads + 1 } where
  apart := h.apart
  reached_ok := h.reached_ok
  past := fun e he t ht => (h.past e he t ht).trans (now_le st s)
  scheduled := h.scheduled

theorem Good.add {s' : UniRetryGen σ} {e : Event} (h : Good st s)
    (hevents : s'.events = s.events ++ [e]) (hreads : s.clock_reads ≤ s'.clock_reads)
    (hapart : ∀ e' ∈ s.events, ∀ t ∈ e'.waits, ∀ t' ∈ e.attempts,
      t.usecs + st.retry_interval_ms.toInt * 1000 ≤ t'.usecs)
    (hreach : e ≠ .reach (some false)) (hpast : ∀ t ∈ e.waits, t.usecs ≤ (s'.now st).usecs)
    (hscheduled : 0 < st.retry_interval_ms.toInt → ∀ e' ∈ s.events ++ [e], ∀ t ∈ e'.waits,
      t.usecs + st.retry_interval_ms.toInt * 1000 ≤ s'.next_reconnect_attempt.longlong.toInt) :
    Good st s' where
  apart := by
    rw [hevents, pairwise_append]
    refine ⟨h.apart, pairwise_singleton _ _, fun e' he' _ he => ?_⟩
    obtain rfl := mem_singleton.mp he
    exact hapart e' he'
  reached_ok := by
    rw [hevents, forall_mem_append]
    exact ⟨h.reached_ok, forall_mem_singleton.mpr hreach⟩
  past := by
    rw [hevents, forall_mem_append]
    refine ⟨fun e' he' t ht => ?_, forall_mem_singleton.mpr hpast⟩
    exact (h.past e' he' t ht).trans (st.clock.mono hreads)
  scheduled := hevents ▸ hscheduled

variable {s' : UniRetryGen σ}

theorem Good.delay {e : Event} (h : Good st s) (hevents : s'.events = s.events ++ [e])
    (hreads : s'.clock_reads = s.clock_reads + 1)
    (hapart : ∀ e' ∈ s.events, ∀ t ∈ e'.waits, ∀ t' ∈ e.attempts,
      t.usecs + st.retry_interval_ms.toInt * 1000 ≤ t'.usecs) (hreach : e ≠ .reach (some false))
    (hwaits : ∀ t ∈ e.waits, t = s.now st)
    (hnext : 0 < st.retry_interval_ms.toInt → Ends st (s.now st) ∧
      s'.next_reconnect_attempt = (s.now st).msecadd st.retry_interval_ms) : Good st s' := by
  have hlater : ∀ e' ∈ s.events ++ [e], ∀ t ∈ e'.waits, t.usecs ≤ (s.now st).usecs := by
    rw [forall_mem_append]
    refine ⟨h.past, forall_mem_singleton.mpr fun t ht => ?_⟩
    rw [hwaits t ht]
  refine h.add hevents (by omega) hapart hreach (fun t ht => ?_) (fun hpos e' he' t ht => ?_)
  · rw [hwaits t ht, now, now, hreads]
    exact now_le st s
  · obtain ⟨hends, hnext⟩ := hnext hpos
    rw [hnext, longlong_msecadd hpos hends]
    exact Int.add_le_add_right (hlater e' he' t ht) _

theorem Good.passed (h : Good st s)
    (hdue : ¬ (s.now st).longlong < s.next_reconnect_attempt.longlong) :
    ∀ e ∈ s.events, ∀ t ∈ e.waits,
      t.usecs + st.retry_interval_ms.toInt * 1000 ≤ (s.now st).usecs := by
  intro e he t ht
  rw [Int64.lt_iff_toInt_lt, toInt_longlong (now_fits st s)] at hdue
  have hpast := h.past e he t ht
  by_cases hpos : 0 < st.retry_interval_ms.toInt
  · have hscheduled := h.scheduled hpos e he t ht
    omega
  · omega

/-! ## The operations -/

theorem good_maybe_reconnect (h : Good st s) (hmeets : ReconnectMeets st around Meets s)
    (hcallback : ∀ s, Good st s → Meets s → Good st (around.reconnect_callback s)) :
    Good st (s.maybe_reconnect st around) := by
  rw [maybe_reconnect]
  split
  · next hnone =>
    have hinner : s.inner = none := isNone_iff_eq_none.mp hnone
    split
    · next hdue =>
      have hpassed := h.passed hdue
      -- each `t'` is the present time
      have hapart : ∀ e' ∈ s.events, ∀ t ∈ e'.waits,
          ∀ t' ∈ (Event.attempt (s.now st) (around.created.map Inner.ok)).attempts,
            t.usecs + st.retry_interval_ms.toInt * 1000 ≤ t'.usecs :=
        fun e' he' t ht t' ht' => some.inj ht' ▸ hpassed e' he' t ht
      have hfails := fun hfailed => hmeets.timely ⟨hinner, hdue, hfailed⟩
      have hcalled := hmeets.callback_meets hinner
      cases hcreated : around.created with
      | none =>
        rw [hcreated] at hapart hfails
        refine h.add rfl (Nat.le_succ _) hapart nofun (fun t ht => ?_) fun hpos => ?_
        · exact some.inj ht ▸ now_le st s
        · rcases hfails rfl with hle | hmade
          · exact absurd hpos (Int.not_lt.mpr hle)
          · exact absurd hmade.1 Bool.false_ne_true
      | some gen =>
        obtain ⟨state, ok⟩ := gen
        rw [hcreated] at hapart hfails hcalled
        cases ok with
        | true =>
          refine hcallback _ (Good.change (h.add rfl (Nat.le_succ _) hapart nofun nofun ?_) _)
            (hcalled _ rfl rfl)
          intro hpos e he t ht
          rcases mem_append.mp he with he | he
          · exact h.scheduled hpos e he t ht
          · obtain rfl := mem_singleton.mp he
            contradiction
        | false =>
          refine h.delay rfl rfl hapart nofun (fun t ht => (some.inj ht).symm) fun hpos => ?_
          obtain ⟨-, hon_time, hends⟩ := (hfails rfl).resolve_left (Int.not_le.mpr hpos)
          exact ⟨hends, congrArg (msecadd · _) hon_time⟩
    · exact h.read
  · exact h

theorem good_maybe_disconnect (h : Good st s)
    (hends : s.lost = true → Ends st (s.now st)) : Good st (s.maybe_disconnect st) := by
  rw [maybe_disconnect]
  split
  · next hlost =>
    refine h.delay rfl rfl (fun _ _ _ _ _ ht' => ?_) nofun (fun t ht => ?_)
      fun _ => ⟨hends hlost, rfl⟩
    · contradiction
    · exact (some.inj ht).symm
  · exact h

theorem good_reach (h : Good st s') (f : σ → σ × ρ) (null : ρ) (hlost : s.lost = false) :
    Good st (s'.reach s f null).1 := by
  rw [reach]
  cases s'.inner with
  | none => exact h
  | some inner =>
    have hok : Event.reach (s.inner.map Inner.ok) ≠ .reach (some false) := by
      intro hreach
      obtain ⟨inner, hinner, hok⟩ := map_eq_some_iff.mp (Event.reach.inj hreach)
      simp [lost, hinner, hok] at hlost
    have hadded : Good st { s' with events := s'.events ++ [.reach (s.inner.map Inner.ok)] } := by
      refine h.add rfl (Nat.le_refl _) (fun _ _ _ _ _ ht' => ?_) hok (fun _ ht => ?_) fun hpos => ?_
      · contradiction
      · contradiction
      · rw [forall_mem_append]
        refine ⟨h.scheduled hpos, forall_mem_singleton.mpr fun _ ht => ?_⟩
        contradiction
    exact hadded.change _

theorem stop_lost (stops : Bool) (s : UniRetryGen σ) :
    (stop stops s).lost = s.inner.any fun inner => stops || !inner.ok := by
  cases stops with
  | false => rfl
  | true => exact Option.any_map

theorem stop_now (stops : Bool) (s : UniRetryGen σ) : (stop stops s).now st = s.now st := by
  cases stops with
  | false => rfl
  | true => rfl

theorem reach_lost (s s' : UniRetryGen σ) (f : σ → σ × ρ) (null : ρ) (stops : Bool) :
    (stop stops (s'.reach s f null).1).lost = (stop stops s').lost := by
  rw [stop_lost, stop_lost, reach]
  cases hinner : s'.inner with
  | none =>
    show s'.inner.any _ = _
    rw [hinner]
  | some inner => rfl

theorem reach_now (s s' : UniRetryGen σ) (f : σ → σ × ρ) (null : ρ) :
    (s'.reach s f null).1.now st = s'.now st := by
  rw [reach]
  cases s'.inner with
  | none => rfl
  | some inner => rfl

theorem filter_isok_ready (hlost : s.lost = true) : (s.ready st around).filter_isok = false := by
  obtain ⟨inner, hinner, hok⟩ := (Option.any_eq_true ..).mp hlost
  have hsame : s.maybe_reconnect st around = s := by
    rw [maybe_reconnect, hinner]
    rfl
  rw [ready, hsame]
  cases around.stops_before_use with
  | false =>
    show s.inner.any Inner.ok = false
    rw [hinner]
    simpa using hok
  | true =>
    show (s.inner.map _).any Inner.ok = false
    rw [hinner]
    rfl

theorem good_ready (h : Good st s) (hmeets : Passes st around Meets s)
    (hcallback : ∀ s, Good st s → Meets s → Good st (around.reconnect_callback s)) :
    Good st (s.ready st around) :=
  good_stop (good_maybe_reconnect h hmeets.reconnect hcallback) _

theorem good_finish {r : UniRetryGen σ × ρ} (hr : Good st r.1) (hmeets : Passes st around Meets s)
    (hlost : (stop around.stops_in_use r.1).lost =
      (stop around.stops_in_use (s.ready st around)).lost)
    (hnow : r.1.now st = (s.ready st around).now st) : Good st (finish st around r).1 := by
  refine good_maybe_disconnect (good_stop hr _) fun hstopped => ?_
  rw [stop_now, hnow]
  exact hmeets.disconnect (hlost ▸ hstopped)

theorem good_guarded (h : Good st s) (hmeets : Passes st around Meets s)
    (hcallback : ∀ s, Good st s → Meets s → Good st (around.reconnect_callback s))
    (f : σ → σ × ρ) (null other : ρ) : Good st (guarded st around f null other s).1 := by
  have hready := good_ready h hmeets hcallback
  rw [guarded]
  split
  · next hok =>
    have hlost : s.lost = false := by
      by_contra hlost
      rw [filter_isok_ready (Bool.eq_true_of_not_eq_false hlost)] at hok
      contradiction
    exact good_finish (good_reach hready f null hlost) hmeets (reach_lost ..) (reach_now ..)
  · exact good_finish hready hmeets rfl rfl

theorem good_perform (h : Good st s) {call : Call} (hmeets : CallMeets st around Meets call s)
    (hcallback : ∀ s, Good st s → Meets s → Good st (around.reconnect_callback s)) :
    Good st (perform st around call s) := by
  cases call with
  | flush_buffers => exact h
  | setv pairs => exact good_reach h _ _ hmeets
  | isok => exact good_finish (good_ready h hmeets hcallback) hmeets rfl rfl
  | recursiveiterator depth key =>
    obtain ⟨hlost, hmeets⟩ := hmeets
    exact good_finish (good_reach (good_ready h hmeets hcallback) _ _ hlost) hmeets (reach_lost ..)
      (reach_now ..)
  | commit | refresh | prefetch | get key | set key value | exists_ key | haschildren key
  | iterator key => exact good_guarded h hmeets hcallback _ _ _

/-! ## Runs -/

mutual

theorem good_run (op : Op σ) (s : UniRetryGen σ) (h : Good st s) (hmeets : op.Meets st s) :
    Good st (op.run st s) :=
  match op with
  | ⟨stops, _, _, callback, _, _⟩ => by
    rw [Op.run]
    rw [Op.Meets] at hmeets
    exact good_perform (good_stop h stops) hmeets (good_runAll callback)

theorem good_runAll (ops : List (Op σ)) (s : UniRetryGen σ) (h : Good st s)
    (hmeets : MeetsAll st ops s) : Good st (runAll st ops s) :=
  match ops with
  | [] => h
  | op :: ops => by
    rw [runAll]
    rw [MeetsAll] at hmeets
    exact good_runAll ops _ (good_run op s h hmeets.1) hmeets.2

end

theorem good_init (st : Setup σ) : Good st (init st) where
  apart := Pairwise.nil
  reached_ok := forall_mem_nil _
  past := forall_mem_nil _
  scheduled := fun _ => forall_mem_nil _

/-- The interval is kept if an attempt fails only when it is just due and gives a generator, the
intervals end at times that can be compared, and `setv` and `recursiveiterator` are not called with
an inner generator that is not ok. -/
theorem respects (st : Setup σ) (created : Option (Inner σ)) (callback ops : List (Op σ))
    (hcreate : CreateMeets st created callback)
    (hmeets : MeetsAll st ops (create st created callback)) :
    Respects st (runAll st ops (create st created callback)) :=
  (good_runAll ops _ (good_maybe_reconnect (good_init st) hcreate (good_runAll callback))
    hmeets).toRespects

def laterTime (sec : Fin 10) (n : Nat) : WvTime := ⟨if n < 2 then 0 else .ofNat sec, 0⟩

theorem laterTime_usecs (sec : Fin 10) (n : Nat) :
    (laterTime sec n).usecs = if n < 2 then 0 else (sec : Int) * 1000000 := by
  rw [laterTime]
  split
  · rfl
  · revert sec
    decide

def later (sec : Fin 10) : Clock where
  time := laterTime sec
  normal n := ⟨(by decide : (0 : Int) ≤ (0 : Int64).toInt), (by decide : (0 : Int64).toInt < 1000000)⟩
  nonneg n := by
    rw [laterTime_usecs]
    split <;> omega
  lt n := by
    rw [laterTime_usecs]
    split <;> omega
  mono m n hmn := by
    simp only [laterTime_usecs]
    split <;> split <;> omega

def nothing : IUniConfGen Unit where
  get _ _ := none
  exists_ _ _ := false
  haschildren _ _ := false
  iterator _ _ := none
  set _ _ _ := ()
  setv _ _ := ()

/-- A generator that is not ok, and five seconds later one that is, until it is used. -/
theorem respects_later : Respects ⟨nothing, later 5, 5000⟩
    (runAll ⟨nothing, later 5, 5000⟩
      [⟨false, .get [], some ⟨(), true⟩, [⟨false, .refresh, none, [], false, false⟩], false, true⟩,
        ⟨false, .recursiveiterator 1 [], some ⟨(), true⟩, [], false, false⟩]
      (create ⟨nothing, later 5, 5000⟩ (some ⟨(), false⟩) [])) := by
  refine respects _ _ _ _ ?_ ?_
  · exact ⟨fun _ => .inr ⟨rfl, rfl, .inr (by decide)⟩, nofun⟩
  · refine ⟨⟨⟨fun h => absurd h.2.2 (by decide), ?_⟩, fun _ => .inr (by decide)⟩,
      ⟨rfl, ⟨fun h => absurd h.2.2 (by decide), fun _ _ _ _ => trivial⟩, nofun⟩, trivial⟩
    rintro - _ ⟨⟩ -
    exact ⟨⟨⟨nofun, nofun⟩, nofun⟩, trivial⟩

/-- No generator can be made, and after one second there is another attempt. -/
theorem not_respects : ¬ ∀ (st : Setup Unit) created callback ops,
    Respects st (runAll st ops (create st created callback)) := by
  intro h
  have hapart := (h ⟨nothing, later 1, 5000⟩ none [] [⟨false, .get [], none, [], false, false⟩]).apart
  have hevents : (runAll ⟨nothing, later 1, 5000⟩ [⟨false, .get [], none, [], false, false⟩]
      (create ⟨nothing, later 1, 5000⟩ none [])).events =
      [.attempt ⟨0, 0⟩ none, .attempt ⟨1, 0⟩ none] := rfl
  rw [hevents] at hapart
  have hpair := List.rel_of_pairwise_cons hapart (List.mem_singleton_self _) _ rfl _ rfl
  exact absurd hpair (by decide)

end UniRetryGen

end WvStreams
