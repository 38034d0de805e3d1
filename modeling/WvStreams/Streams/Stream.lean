import WvStreams.Buffers.DynBuf
import WvStreams.Lib.Stop

/-!
# Streams

A `WvStream` with its two buffers, and how it empties the one for output. What is virtual, and
what comes from the system, is a `World` that answers as it likes. `close` and `select` come to
`flush` again; `is_flushing` ends this, so that inside a `flush` they are simpler.

The input buffer is the queue that a `WvDynBuf` is (`WvDynBufStore.refines_fifo`). The output
buffer is the store itself, as `flush_outbuf` asserts something about its history.
-/

namespace WvStreams

open Lib List

structure WvStream where
  inbuf : Queue := ⟨[], []⟩
  outbuf : WvDynBufStore := .new 1 1024 1048576 Nat.one_pos (by decide)
  stop_read : Bool := false
  stop_write : Bool := false
  closed : Bool := false
  max_outbuf_size : Nat := 0
  outbuf_delayed_flush : Bool := false
  is_auto_flush : Bool := true
  want_to_flush : Bool := true
  is_flushing : Bool := false
  queue_min : Nat := 0
  autoclose_time : Int := 0

/-- What a virtual function did to the stream before it returned. -/
inductive Trouble where
  | none
  | noread
  | close

/-- How `::select` came back: with an error that is for `seterr` or with one that is not, or well.
Then the descriptor can be written or not, and `post_select` has a result. -/
inductive Selected where
  | failed
  | interrupted
  | well (writable sure : Bool)

/-- A derived class, the system and the clocks. Times are in milliseconds for `wvtime` and in
seconds for `time`. -/
structure World (ω : Type) where
  uread : ω → Nat → ω × Str × Trouble
  uread_le : ∀ w count, (uread w count).2.1.length ≤ count
  uwrite : ω → Str → ω × Nat
  uwrite_le : ∀ w buf, (uwrite w buf).2 ≤ buf.length
  wvtime : ω → ω × Int
  time : ω → ω × Int
  select : ω → ω × Selected

/-- The stream and what is outside, with a record of what was exchanged: the bytes that `uwrite`
accepted, those that `write` said it accepted, those that the readers were given, and those that
`uread` delivered, with what was unread in its place. -/
structure System (ω : Type) extends WvStream where
  outside : ω
  sent : Str := []
  reported : Str := []
  handed : Str := []
  tape : Str := []

namespace WvStream

def isok (s : WvStream) : Bool := !s.closed

def should_flush (s : WvStream) : Bool := s.want_to_flush

def delay_output (s : WvStream) (is_delayed : Bool) : WvStream :=
  { s with outbuf_delayed_flush := is_delayed, want_to_flush := !is_delayed }

def auto_flush (s : WvStream) (is_automatic : Bool) : WvStream :=
  { s with is_auto_flush := is_automatic }

def outbuf_limit (s : WvStream) (size : Nat) : WvStream := { s with max_outbuf_size := size }

def queuemin (s : WvStream) (count : Nat) : WvStream := { s with queue_min := count }

end WvStream

namespace System

variable {ω : Type} (W : World ω)

/-- What a function of the stream does; it may not return. -/
abbrev Does (ω α : Type) : Type := System ω → Except (Stop (System ω)) α

def maybe_autoclose (close : Does ω (System ω)) : Does ω (System ω) := fun s =>
  if s.stop_read && s.stop_write && s.outbuf.used == 0 && s.inbuf.content.length == 0 && !s.closed
  then close s
  else pure s

/-- What `uwrite` refused of the bytes that were taken is put back. -/
def put_back (count real : Nat) : Does ω (System ω) := fun s =>
  if s.isok && real < count then do
    let outbuf ← assertSome
      (if count - real ≤ s.outbuf.ungettable then s.outbuf.unget (count - real) else none)
    pure { s with outbuf }
  else pure s

def attempt : Does ω (System ω) := fun s => do
  let count := s.outbuf.optgettable
  let (outbuf, first) ← assertSome (s.outbuf.get count)
  let buf := outbuf.read first count
  let answer := W.uwrite s.outside buf
  put_back count answer.2
    { s with outbuf, outside := answer.1, sent := s.sent ++ buf.take answer.2 }

/-- Whether the loop of `flush_outbuf` goes on after an attempt. -/
def goes_on (select : Does ω (System ω × Bool)) (msec_timeout stoptime : Int) :
    Does ω (System ω × Bool) := fun s =>
  if msec_timeout = 0 then pure (s, false)
  else if msec_timeout < 0 then pure (s, true)
  else
    let (outside, now) := W.wvtime s.outside
    let s := { s with outside }
    if stoptime < now then pure (s, false) else select s

/-- The loop of `flush_outbuf`, with its `outbuf_was_used`. -/
def flush_round (select : Does ω (System ω × Bool)) (msec_timeout stoptime : Int) :
    System ω × Bool → Except (Stop (System ω)) (System ω × Bool ⊕ System ω × Bool)
  | (s, outbuf_was_used) =>
    if outbuf_was_used && s.isok then do
      let s ← attempt W s
      let (s, again) ← goes_on W select msec_timeout stoptime s
      if again then pure (.inl (s, s.outbuf.used != 0)) else pure (.inr (s, outbuf_was_used))
    else pure (.inr (s, outbuf_was_used))

/-- The part of `flush_outbuf` that handles autoclose; `flush_internal` of a `WvStream` returns
true. -/
def autoclose (close : Does ω (System ω)) : Does ω (System ω) := fun s =>
  if s.autoclose_time != 0 && s.isok then
    let (outside, now) := W.time s.outside
    let s := { s with outside }
    if s.outbuf.used == 0 || s.autoclose_time < now then close { s with autoclose_time := 0 }
    else pure s
  else pure s

/-- `flush_outbuf`, given the `close` and the `select` that it calls; its loop is watched for
some rounds. -/
def flush_outbufWith (close : Does ω (System ω)) (select : Does ω (System ω × Bool))
    (rounds : Nat) (msec_timeout : Int) : Does ω (System ω × Bool) := fun s =>
  let outbuf_was_used := s.outbuf.used != 0
  if !outbuf_was_used && s.autoclose_time == 0 && !s.outbuf_delayed_flush then do
    let s ← maybe_autoclose close s
    pure (s, true)
  else do
    let (outside, now) := W.wvtime s.outside
    let (s, outbuf_was_used) ← iterate Prod.fst
      (flush_round W select msec_timeout (now + msec_timeout)) (rounds + 1)
      ({ s with outside }, outbuf_was_used)
    let s ← autoclose W close s
    let s : System ω :=
      if s.outbuf_delayed_flush && !outbuf_was_used then { s with want_to_flush := false } else s
    -- if we can't flush the outbuf, at least empty it!
    let s : System ω :=
      if outbuf_was_used && !s.isok then { s with outbuf := s.outbuf.zap } else s
    let s ← maybe_autoclose close s
    pure (s, !outbuf_was_used)

/-- An `if` without an `else`. -/
def doesIf (c : Bool) (f : Does ω (System ω × Bool)) : Does ω (System ω × Bool) := fun s =>
  if c then f s else pure (s, false)

/-- `select`, given what its `pre_select` and `post_select` call. A `WvFdStream` calls
`flush_outbuf(0)` itself in its `post_select`. -/
def selectWith (close : Does ω (System ω)) (flush flush_outbuf : Does ω (System ω × Bool)) :
    Does ω (System ω × Bool) := fun s => do
  let s ← maybe_autoclose close s
  let (outside, selected) := W.select s.outside
  let s := { s with outside }
  match selected with
  | .failed => do
    let s ← close s
    pure (s, false)
  | .interrupted => pure (s, false)
  | .well writable sure => do
    let (s, _) ← doesIf s.should_flush flush s
    let flushable := s.outbuf.used != 0 || s.autoclose_time != 0
    let (s, _) ← doesIf (writable && flushable && s.should_flush) flush_outbuf s
    pure (s, sure)

/-- A `flush` while `is_flushing`. It also stands for the `select` of a `flush_outbuf` that has no
timeout, and so does not come to it. -/
def returnsFalse : Does ω (System ω × Bool) := fun s => pure (s, false)

/-- `close` while `is_flushing`: its own `flush` returns at once. -/
def closeFlushing : Does ω (System ω) := fun s => pure { s with closed := true }

/-- `select` while `is_flushing`. -/
def selectFlushing : Does ω (System ω × Bool) :=
  selectWith W closeFlushing returnsFalse (flush_outbufWith W closeFlushing returnsFalse 1 0)

def flush (rounds : Nat) (msec_timeout : Int) : Does ω (System ω × Bool) := fun s =>
  if s.is_flushing then pure (s, false)
  else do
    let (s, done) ← flush_outbufWith W closeFlushing (selectFlushing W) rounds msec_timeout
      { s with is_flushing := true, want_to_flush := true }
    pure ({ s with is_flushing := false }, done)

def close (rounds : Nat) : Does ω (System ω) := fun s => do
  let (s, _) ← flush W rounds 2000 s
  pure { s with closed := true }

/-- `flush_outbuf(0)`, as `write` and `post_select` call it. -/
def flush_outbuf (rounds : Nat) : Does ω (System ω × Bool) :=
  flush_outbufWith W (close W rounds) returnsFalse rounds 0

def select (rounds : Nat) : Does ω (System ω × Bool) :=
  selectWith W (close W rounds) (flush W rounds 0) (flush_outbuf W rounds)

def noread (rounds : Nat) : Does ω (System ω) := fun s =>
  maybe_autoclose (close W rounds) { s with stop_read := true }

def nowrite (rounds : Nat) : Does ω (System ω) := fun s =>
  maybe_autoclose (close W rounds) { s with stop_write := true }

def flush_then_close (rounds : Nat) (msec_timeout : Int) : Does ω (System ω × Bool) := fun s =>
  let (outside, now) := W.time s.outside
  flush W rounds 0 { s with outside, autoclose_time := now + (msec_timeout + 999).tdiv 1000 }

def Valid (s : System ω) : Prop := WvLinkedBufferStore.Inv s.outbuf.toWvLinkedBufferStore

/-- The bytes that were sent, and those that are still to be sent. -/
def output (s : System ω) : Str := s.sent ++ s.outbuf.content

/-- Bytes of the output buffer may have been sent, unless the stream was closed. -/
structure Keeps (s s' : System ω) : Prop where
  valid : s'.Valid
  output : s'.closed = false → s.closed = false ∧ s'.output = s.output
  inbuf : s'.inbuf = s.inbuf
  queue_min : s'.queue_min = s.queue_min
  reported : s'.reported = s.reported
  handed : s'.handed = s.handed
  tape : s'.tape = s.tape

variable {s : System ω}

theorem Keeps.refl (hs : s.Valid) : Keeps s s :=
  ⟨hs, fun h => ⟨h, rfl⟩, rfl, rfl, rfl, rfl, rfl⟩

theorem Keeps.trans {s₁ s₂ s₃ : System ω} (h : Keeps s₁ s₂) (h' : Keeps s₂ s₃) : Keeps s₁ s₃ where
  valid := h'.valid
  output hopen := by
    obtain ⟨hopen₂, hout₂⟩ := h'.output hopen
    obtain ⟨hopen₁, hout₁⟩ := h.output hopen₂
    exact ⟨hopen₁, hout₂.trans hout₁⟩
  inbuf := h'.inbuf.trans h.inbuf
  queue_min := h'.queue_min.trans h.queue_min
  reported := h'.reported.trans h.reported
  handed := h'.handed.trans h.handed
  tape := h'.tape.trans h.tape

/-- The fields that `Keeps` is about. -/
def kept (s : System ω) : (WvDynBufStore × Bool × Queue × Nat) × (Str × Str × Str × Str) :=
  ((s.outbuf, s.closed, s.inbuf, s.queue_min), (s.sent, s.reported, s.handed, s.tape))

theorem Keeps.congr {r r' : System ω} (h : Keeps s r) (hkept : r'.kept = r.kept) : Keeps s r' := by
  simp only [kept, Prod.mk.injEq] at hkept
  obtain ⟨⟨houtbuf, hclosed, hinbuf, hmin⟩, hsent, hreported, hhanded, htape⟩ := hkept
  constructor
  · rw [Valid, houtbuf]
    exact h.valid
  · rw [System.output, houtbuf, hsent, hclosed]
    exact h.output
  · exact hinbuf.trans h.inbuf
  · exact hmin.trans h.queue_min
  · exact hreported.trans h.reported
  · exact hhanded.trans h.handed
  · exact htape.trans h.tape

theorem Keeps.close {r : System ω} (h : Keeps s r) : Keeps s { r with closed := true } :=
  ⟨h.valid, fun hopen => Bool.noConfusion hopen, h.inbuf, h.queue_min, h.reported, h.handed, h.tape⟩

theorem Keeps.zap {r : System ω} (h : Keeps s r) (hclosed : r.isok = false) :
    Keeps s { r with outbuf := r.outbuf.zap } :=
  ⟨(WvLinkedBufferStore.zap_spec r.outbuf.toWvLinkedBufferStore).1, fun hopen => by
      rw [WvStream.isok, Bool.not_eq_false'] at hclosed
      exact absurd (hopen.symm.trans hclosed) Bool.false_ne_true,
    h.inbuf, h.queue_min, h.reported, h.handed, h.tape⟩

/-- All that a function does, also while it has not returned, is to send and to close. -/
def Keeping {α : Type} (after : α → System ω) (f : Does ω α) : Prop :=
  ∀ s, s.Valid → Safe (Keeps s) (fun a => Keeps s (after a)) (f s)

section Keeping

variable {W} {close : Does ω (System ω)} {flush flush_outbuf select : Does ω (System ω × Bool)}

theorem Keeping.from {α : Type} {after : α → System ω} {f : Does ω α} (hf : Keeping after f)
    {s r : System ω} (h : Keeps s r) : Safe (Keeps s) (fun a => Keeps s (after a)) (f r) :=
  (hf r h.valid).mono (fun _ => h.trans) (fun _ => h.trans)

open Keeps

theorem keeping_maybe_autoclose (hclose : Keeping id close) :
    Keeping id (maybe_autoclose close) := by
  intro s hs
  rw [maybe_autoclose]
  split
  · exact hclose s hs
  · exact refl hs

theorem keeping_attempt : Keeping id (attempt W) := by
  intro s hs
  have hcount := WvDynBufStore.optgettable_le hs
  obtain ⟨s₁, first, hget, hread, hinv₁, hcontent₁, hback⟩ := WvDynBufStore.get_unget hs hcount
  simp only [attempt, hget, assertSome, bind, Except.bind, hread]
  have hreal := W.uwrite_le s.outside (s.outbuf.content.take s.outbuf.optgettable)
  rw [length_take_of_le (hcount.trans_eq hs.total)] at hreal
  generalize W.uwrite s.outside (s.outbuf.content.take s.outbuf.optgettable) = answer at hreal ⊢
  obtain ⟨outside, real⟩ := answer
  dsimp only at hreal ⊢
  rw [take_take, Nat.min_eq_left hreal]
  obtain ⟨hundo, s₂, hunget, hinv₂, hcontent₂⟩ := hback real hreal
  rw [put_back]
  refine iteInduction (fun _ => ?_) fun hrefused => ?_
  · rw [if_pos (show _ ≤ s₁.ungettable from hundo), hunget]
    refine ⟨hinv₂, fun hopen => ⟨hopen, ?_⟩, rfl, rfl, rfl, rfl, rfl⟩
    show (s.sent ++ s.outbuf.content.take real) ++ s₂.content = _
    rw [hcontent₂, append_assoc, take_append_drop]
    rfl
  · refine ⟨hinv₁, fun hopen => ⟨hopen, ?_⟩, rfl, rfl, rfl, rfl, rfl⟩
    -- all of it was accepted
    have hclosed : s.closed = false := hopen
    simp only [WvStream.isok, hclosed, Bool.not_false, Bool.true_and, decide_eq_true_eq,
      Nat.not_lt] at hrefused
    show (s.sent ++ s.outbuf.content.take real) ++ s₁.content = _
    rw [hcontent₁, Nat.le_antisymm hreal hrefused, append_assoc, take_append_drop]
    rfl

theorem keeping_goes_on (hselect : Keeping Prod.fst select) (msec_timeout stoptime : Int) :
    Keeping Prod.fst (goes_on W select msec_timeout stoptime) := by
  intro s hs
  rw [goes_on]
  split
  · exact refl hs
  split
  · exact refl hs
  have htime : Keeps s { s with outside := (W.wvtime s.outside).1 } := (refl hs).congr rfl
  dsimp only
  split
  · exact htime
  · exact hselect.from htime

theorem keeps_flush_round (hselect : Keeping Prod.fst select) (msec_timeout stoptime : Int)
    {s : System ω} {a : System ω × Bool} (ha : Keeps s a.1) :
    Safe (Keeps s) (Sum.elim (fun a => Keeps s a.1) (fun a => Keeps s a.1))
      (flush_round W select msec_timeout stoptime a) := by
  obtain ⟨r, outbuf_was_used⟩ := a
  rw [flush_round]
  split
  · refine (keeping_attempt.from ha).bind fun r₁ h₁ => ?_
    refine ((keeping_goes_on hselect msec_timeout stoptime).from h₁).bind fun r₂ h₂ => ?_
    obtain ⟨r₂, again⟩ := r₂
    dsimp only
    split
    · exact h₂
    · exact h₂
  · exact ha

theorem keeping_autoclose (hclose : Keeping id close) : Keeping id (autoclose W close) := by
  intro s hs
  rw [autoclose]
  split
  · have htime : Keeps s { s with outside := (W.time s.outside).1 } := (refl hs).congr rfl
    dsimp only
    split
    · exact hclose.from (htime.congr rfl)
    · exact htime
  · exact refl hs

theorem keeping_flush_outbufWith (hclose : Keeping id close) (hselect : Keeping Prod.fst select)
    (rounds : Nat) (msec_timeout : Int) :
    Keeping Prod.fst (flush_outbufWith W close select rounds msec_timeout) := by
  intro s hs
  rw [flush_outbufWith]
  split
  · refine (keeping_maybe_autoclose hclose s hs).bind fun r h => ?_
    exact h
  · have hstart : Keeps s { s with outside := (W.wvtime s.outside).1 } := (refl hs).congr rfl
    refine (Safe.iterate (I := fun a : System ω × Bool => Keeps s a.1) (fun a ha => ha)
      (fun a ha => keeps_flush_round hselect msec_timeout _ ha) hstart _).bind fun a ha => ?_
    obtain ⟨r, outbuf_was_used⟩ := a
    refine ((keeping_autoclose hclose).from ha).bind fun r₁ h₁ => ?_
    -- the setting, and the `zap` of a stream that is not ok
    have h₂ : Keeps s (if r₁.outbuf_delayed_flush && !outbuf_was_used then
        { r₁ with want_to_flush := false } else r₁) := by
      split
      · exact h₁.congr rfl
      · exact h₁
    generalize (if r₁.outbuf_delayed_flush && !outbuf_was_used then
      { r₁ with want_to_flush := false } else r₁) = r₂ at h₂ ⊢
    have h₃ : Keeps s (if outbuf_was_used && !r₂.isok then
        { r₂ with outbuf := r₂.outbuf.zap } else r₂) := by
      split
      · rename_i hzap
        exact h₂.zap (by simp_all only [Bool.and_eq_true, Bool.not_eq_true'])
      · exact h₂
    exact ((keeping_maybe_autoclose hclose).from h₃).bind fun r₃ h => h

theorem keeping_doesIf (hflush : Keeping Prod.fst flush) (c : Bool) :
    Keeping Prod.fst (doesIf c flush) := by
  intro s hs
  rw [doesIf]
  split
  · exact hflush s hs
  · exact refl hs

theorem keeping_selectWith (hclose : Keeping id close) (hflush : Keeping Prod.fst flush)
    (hflush_outbuf : Keeping Prod.fst flush_outbuf) :
    Keeping Prod.fst (selectWith W close flush flush_outbuf) := by
  intro s hs
  rw [selectWith]
  refine (keeping_maybe_autoclose hclose s hs).bind fun r h => ?_
  have hselect : Keeps s { r with outside := (W.select r.outside).1 } := h.congr rfl
  dsimp only
  split
  · exact (hclose.from hselect).bind fun r h => h
  · exact hselect
  · refine ((keeping_doesIf hflush _).from hselect).bind fun a₁ h₁ => ?_
    exact ((keeping_doesIf hflush_outbuf _).from h₁).bind fun a₂ h₂ => h₂

end Keeping

theorem keeping_returnsFalse : Keeping Prod.fst (returnsFalse : Does ω (System ω × Bool)) :=
  fun _ hs => Keeps.refl hs

theorem keeping_closeFlushing : Keeping id (closeFlushing : Does ω (System ω)) :=
  fun _ hs => (Keeps.refl hs).close

theorem keeping_flush (rounds : Nat) (msec_timeout : Int) :
    Keeping Prod.fst (flush W rounds msec_timeout) := by
  have hselect : Keeping Prod.fst (selectFlushing W) :=
    keeping_selectWith keeping_closeFlushing keeping_returnsFalse
      (keeping_flush_outbufWith keeping_closeFlushing keeping_returnsFalse 1 0)
  intro s hs
  rw [flush]
  split
  · exact Keeps.refl hs
  · have hstart : Keeps s { s with is_flushing := true, want_to_flush := true } :=
      (Keeps.refl hs).congr rfl
    exact ((keeping_flush_outbufWith keeping_closeFlushing hselect rounds msec_timeout).from
      hstart).bind fun a ha => ha.congr rfl

theorem keeping_close (rounds : Nat) : Keeping id (close W rounds) :=
  fun s hs => (keeping_flush W rounds 2000 s hs).bind fun _ ha => ha.close

theorem keeping_flush_outbuf (rounds : Nat) : Keeping Prod.fst (flush_outbuf W rounds) :=
  keeping_flush_outbufWith (keeping_close W rounds) keeping_returnsFalse rounds 0

theorem keeping_select (rounds : Nat) : Keeping Prod.fst (select W rounds) :=
  keeping_selectWith (keeping_close W rounds) (keeping_flush W rounds 0)
    (keeping_flush_outbuf W rounds)

theorem keeping_noread (rounds : Nat) : Keeping id (noread W rounds) := fun _ hs =>
  (keeping_maybe_autoclose (keeping_close W rounds)).from ((Keeps.refl hs).congr rfl)

theorem keeping_nowrite (rounds : Nat) : Keeping id (nowrite W rounds) := fun _ hs =>
  (keeping_maybe_autoclose (keeping_close W rounds)).from ((Keeps.refl hs).congr rfl)

theorem keeping_flush_then_close (rounds : Nat) (msec_timeout : Int) :
    Keeping Prod.fst (flush_then_close W rounds msec_timeout) := fun _ hs =>
  (keeping_flush W rounds 0).from ((Keeps.refl hs).congr rfl)

end System

end WvStreams
