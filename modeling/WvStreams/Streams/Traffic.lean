import WvStreams.Streams.Input
import WvStreams.Streams.Output

/-!
# What goes through a stream

The calls of a client on one stream, in any order. After each of them what was sent, with the
output buffer, is what `write` accepted (`output_in_order`), and what was handed out, with the
input buffer, is what `uread` delivered (`input_served_iff`).
-/

namespace WvStreams

open Lib List

namespace System

inductive Call where
  | write (buf : Str)
  | flush (msec_timeout : Int)
  | select
  | read (count : Nat)
  | getline (wait_msec : Int) (separator : Byte) (readahead : Nat)
  | unread (unreadbuf : Str)
  | queuemin (count : Nat)
  | delay_output (is_delayed : Bool)
  | auto_flush (is_automatic : Bool)
  | outbuf_limit (size : Nat)
  | flush_then_close (msec_timeout : Int)
  | noread
  | nowrite
  | close
  deriving DecidableEq

def Call.data : Call → Str
  | .write buf => buf
  | _ => []

variable {ω : Type} (W : World ω) (rounds : Nat)

def step : Call → Does ω (System ω)
  | .write buf, s => do
    let (s, wrote) ← write W rounds buf s
    pure { s with reported := s.reported ++ buf.take wrote }
  | .flush msec_timeout, s => do
    let (s, _) ← flush W rounds msec_timeout s
    pure s
  | .select, s => do
    let (s, _) ← select W rounds s
    pure s
  | .read count, s => do
    let (s, buf) ← read W rounds count s
    pure { s with handed := s.handed ++ buf }
  | .getline wait_msec separator readahead, s => do
    let (s, line) ← blocking_getline W rounds wait_msec separator readahead s
    pure { s with handed := s.handed ++ taken separator line }
  | .unread unreadbuf, s =>
    -- the bytes are put in front of those that are still to be handed out
    pure { unread unreadbuf s with
      tape := s.handed ++ (unreadbuf ++ s.tape.drop s.handed.length) }
  | .queuemin count, s => pure { s with toWvStream := s.queuemin count }
  | .delay_output is_delayed, s => pure { s with toWvStream := s.delay_output is_delayed }
  | .auto_flush is_automatic, s => pure { s with toWvStream := s.auto_flush is_automatic }
  | .outbuf_limit size, s => pure { s with toWvStream := s.outbuf_limit size }
  | .flush_then_close msec_timeout, s => do
    let (s, _) ← flush_then_close W rounds msec_timeout s
    pure s
  | .noread, s => noread W rounds s
  | .nowrite, s => nowrite W rounds s
  | .close, s => close W rounds s

def run : List Call → Does ω (System ω) := sequence (step W rounds)

def start (outside : ω) : System ω := { outside }

structure Balanced (s : System ω) : Prop where
  valid : s.Valid
  output : s.closed = false → s.output = s.reported
  input : s.handed ++ s.inbuf.content = s.tape

/-- A call that has not returned may have taken some of the bytes that it is to write. -/
def Underway (data : Str) (s : System ω) : Prop :=
  s.closed = false → ∃ part, part <+: data ∧ s.output = s.reported ++ part

theorem balanced_start (outside : ω) : Balanced (start outside) :=
  ⟨⟨forall_mem_nil _, rfl, fun _ => rfl⟩, fun _ => rfl, rfl⟩

variable {s s' : System ω}

theorem Balanced.underway (hs : Balanced s) (h : KeepsOutput s s') (data : Str) :
    Underway data s' := by
  intro hopen
  obtain ⟨hopen', hout⟩ := h.output hopen
  refine ⟨[], nil_prefix, ?_⟩
  rw [hout, hs.output hopen', h.reported, append_nil]

theorem Balanced.reads (hs : Balanced s) {out : Str} (h : Reads s out s') :
    Balanced { s' with handed := s'.handed ++ out } where
  valid := h.valid
  output hopen := by
    obtain ⟨hopen', hout⟩ := h.output hopen
    exact hout.trans ((hs.output hopen').trans h.reported.symm)
  input := by
    obtain ⟨more, htape, hleft⟩ := h.input
    show s'.handed ++ out ++ s'.inbuf.content = s'.tape
    rw [append_assoc, hleft, h.handed, htape, ← append_assoc, hs.input]

theorem Balanced.keeps (hs : Balanced s) (h : Keeps s s') : Balanced s' := by
  have hreads := hs.reads h.reads
  rw [append_nil] at hreads
  exact hreads

theorem Balanced.keeping {α : Type} {after : α → System ω} {f : Does ω α} (hf : Keeping after f)
    (hs : Balanced s) (data : Str) : Safe (Underway data) (fun a => Balanced (after a)) (f s) :=
  (hf s hs.valid).mono (fun _ h => hs.underway h.keepsOutput data) fun _ h => hs.keeps h

theorem Balanced.fills {m : System ω} {part : Str} (hs : Balanced s) (hfills : Fills part s m)
    (h : Keeps m s') (hopen : s'.closed = false) : s'.output = s'.reported ++ part := by
  obtain ⟨hopen', hout⟩ := h.output hopen
  rw [hout, hfills.output, h.reported, hfills.reported, hs.output (hfills.closed ▸ hopen')]

theorem Balanced.write (hs : Balanced s) (buf : Str) :
    Safe (Underway buf) Balanced (step W rounds (.write buf) s) := by
  refine ((write_spec W rounds buf hs.valid).mono ?_ fun _ h => h).bind fun a h => ?_
  · rintro s' ⟨wrote, m, hfills, h⟩ hopen
    exact ⟨_, take_prefix wrote buf, hs.fills hfills h hopen⟩
  · obtain ⟨m, hfills, h⟩ := h
    refine ⟨h.valid, fun hopen => hs.fills hfills h hopen, ?_⟩
    show a.1.handed ++ a.1.inbuf.content = a.1.tape
    rw [h.handed, h.inbuf, h.tape, hfills.handed, hfills.inbuf, hfills.tape]
    exact hs.input

theorem Balanced.unread (hs : Balanced s) (unreadbuf : Str) :
    Balanced { unread unreadbuf s with
      tape := s.handed ++ (unreadbuf ++ s.tape.drop s.handed.length) } where
  valid := hs.valid
  output := hs.output
  input := by
    show s.handed ++ (unreadbuf ++ s.inbuf.content) = _
    rw [← hs.input, drop_left]

theorem step_balanced (hs : Balanced s) (call : Call) :
    Safe (Underway call.data) Balanced (step W rounds call s) := by
  have hreads : ∀ {α : Type} {f : Does ω α} {after : α → System ω} {out : α → Str},
      Safe (KeepsOutput s) (fun a => Reads s (out a) (after a)) (f s) → Safe (Underway []) Balanced
        (f s >>= fun a => pure { after a with handed := (after a).handed ++ out a }) :=
    fun h => (h.mono (fun _ h => hs.underway h []) fun _ h => h).bind fun _ h => hs.reads h
  cases call with
  | write buf => exact hs.write W rounds buf
  | flush msec_timeout =>
    exact (hs.keeping (keeping_flush W rounds msec_timeout) _).bind fun _ h => h
  | select => exact (hs.keeping (keeping_select W rounds) _).bind fun _ h => h
  | read count => exact hreads ((read_spec hs.valid count).mono (fun _ h => h) fun _ h => h.1)
  | getline wait_msec separator readahead =>
    exact hreads (blocking_getline_spec hs.valid wait_msec separator readahead)
  | unread unreadbuf => exact hs.unread unreadbuf
  | queuemin count | delay_output is_delayed | auto_flush is_automatic | outbuf_limit size =>
    exact ⟨hs.valid, hs.output, hs.input⟩
  | flush_then_close msec_timeout =>
    exact (hs.keeping (keeping_flush_then_close W rounds msec_timeout) _).bind fun _ h => h
  | noread => exact hs.keeping (keeping_noread W rounds) _
  | nowrite => exact hs.keeping (keeping_nowrite W rounds) _
  | close => exact hs.keeping (keeping_close W rounds) _

/-- No assertion fails. While the stream is ok, what `uwrite` accepted and what is buffered are the
bytes that the `write`s said they accepted; a call that is still running may have accepted more. -/
theorem output_in_order (outside : ω) (calls : List Call) :
    Safe (fun s => s.isok = true → ∃ call ∈ calls, ∃ part, part <+: call.data ∧
        s.sent ++ s.outbuf.content = s.reported ++ part)
      (fun s => s.isok = true → s.sent ++ s.outbuf.content = s.reported)
      (run W rounds calls (start outside)) := by
  have hopen : ∀ s : System ω, s.isok = true → s.closed = false := fun s h => by
    rwa [WvStream.isok, Bool.not_eq_true'] at h
  have hrun : Safe (fun s => ∃ call ∈ calls, Underway call.data s) Balanced
      (run W rounds calls (start outside)) := by
    refine Safe.sequence (fun call hcall s hs _ => ?_) (balanced_start outside)
      (stepsMeet_true _ _ _)
    exact (step_balanced W rounds hs call).mono (fun _ h => ⟨call, hcall, h⟩) fun _ h => h
  refine hrun.mono (fun s hrunning hok => ?_) fun s h hok => h.output (hopen s hok)
  obtain ⟨call, hcall, h⟩ := hrunning
  obtain ⟨part, hpart, hout⟩ := h (hopen s hok)
  exact ⟨call, hcall, part, hpart, hout⟩

/-- A `getline` stops waiting for the rest of a line that has begun. -/
def StopsWaiting (s : System ω) : Call → Prop
  | .getline wait_msec separator readahead => GivesUp W rounds wait_msec separator readahead s
  | _ => False

theorem step_queue_min (hs : s.Valid) (hmin : s.queue_min ≤ 1) {call : Call}
    (hcall : ∀ count, call ≠ .queuemin count) :
    Safe (fun _ => True) (fun s' => s'.queue_min ≤ 1 ↔ ¬ StopsWaiting W rounds s call)
      (step W rounds call s) := by
  have hsame : ∀ {s' : System ω} {call : Call}, StopsWaiting W rounds s call = False →
      s'.queue_min = s.queue_min → (s'.queue_min ≤ 1 ↔ ¬ StopsWaiting W rounds s call) :=
    fun hnot heq => by
      rw [hnot, heq]
      exact iff_of_true hmin not_false
  have hkeeping : ∀ {α : Type} {f : Does ω α} {after : α → System ω}, Keeping after f →
      Safe (fun _ => True) (fun a => (after a).queue_min = s.queue_min) (f s) :=
    fun hf => (hf s hs).mono (fun _ _ => trivial) fun _ h => h.queue_min
  cases call with
  | write buf =>
    refine ((write_spec W rounds buf hs).mono (fun _ _ => trivial) fun _ h => h).bind fun a h => ?_
    obtain ⟨m, hfills, hkeeps⟩ := h
    exact hsame rfl (hkeeps.queue_min.trans hfills.queue_min)
  | flush msec_timeout =>
    exact (hkeeping (keeping_flush W rounds msec_timeout)).bind fun _ => hsame rfl
  | select => exact (hkeeping (keeping_select W rounds)).bind fun _ => hsame rfl
  | read count =>
    exact ((read_spec hs count).mono (fun _ _ => trivial) fun _ h => h.2).bind fun _ => hsame rfl
  | getline wait_msec separator readahead =>
    have hspec := @blocking_getline_spec ω W rounds s hs wait_msec separator readahead
    rw [step]
    cases hcase : blocking_getline W rounds wait_msec separator readahead s with
    | error e =>
      rw [hcase] at hspec
      cases e with
      | failed => exact hspec
      | running _ => exact trivial
    | ok a => exact blocking_getline_queue_min hs hmin hcase
  | unread unreadbuf => exact hsame rfl rfl
  | queuemin count => exact absurd rfl (hcall count)
  | delay_output is_delayed | auto_flush is_automatic | outbuf_limit size => exact hsame rfl rfl
  | flush_then_close msec_timeout =>
    exact (hkeeping (keeping_flush_then_close W rounds msec_timeout)).bind fun _ => hsame rfl
  | noread => exact (hkeeping (keeping_noread W rounds)).mono (fun _ h => h) fun _ => hsame rfl
  | nowrite => exact (hkeeping (keeping_nowrite W rounds)).mono (fun _ h => h) fun _ => hsame rfl
  | close => exact (hkeeping (keeping_close W rounds)).mono (fun _ h => h) fun _ => hsame rfl

theorem run_queue_min (outside : ω) {calls : List Call}
    (hcalls : ∀ call ∈ calls, ∀ count, call ≠ .queuemin count)
    (hmeet : StepsMeet (step W rounds) (fun s call => ¬ StopsWaiting W rounds s call) calls
      (start outside)) :
    Safe (fun _ => True) (fun s => Balanced s ∧ s.queue_min ≤ 1)
      (run W rounds calls (start outside)) := by
  refine Safe.sequence (fun call hcall s ⟨hs, hmin⟩ hwaits => ?_)
    ⟨balanced_start outside, Nat.zero_le 1⟩ hmeet
  have hstep := step_queue_min W rounds hs.valid hmin (hcalls call hcall)
  have hbalanced : Safe (fun _ => True) Balanced (step W rounds call s) :=
    (step_balanced W rounds hs call).mono (fun _ _ => trivial) fun _ h => h
  exact (hbalanced.and_of_imp fun _ : True => hstep).mono (fun _ h => h)
    fun s' h => ⟨h.1, (h.2 trivial).mpr hwaits⟩

/-- What was handed out and what is buffered are the bytes that `uread` delivered, with those that
were unread in front of the ones that were still to come. If no `queuemin` is asked for and no
`getline` stopped waiting, a read returns a byte wherever there is one; and this goes on until one
does stop waiting. -/
theorem input_served_iff (outside : ω) {calls : List Call} {call : Call}
    (hcalls : ∀ count, .queuemin count ∉ call :: calls) :
    Safe (fun _ => True) (fun s => s.handed ++ s.inbuf.content = s.tape ∧
        (StepsMeet (step W rounds) (fun s call => ¬ StopsWaiting W rounds s call) calls
            (start outside) → Serves s ∧ Safe (fun _ => True)
            (fun s' => AlwaysServes s' ↔ ¬ StopsWaiting W rounds s call) (step W rounds call s)))
      (run W rounds calls (start outside)) := by
  obtain ⟨hcall, hcalls⟩ : (∀ count, call ≠ .queuemin count) ∧
      ∀ call ∈ calls, ∀ count, call ≠ .queuemin count := by
    simp only [mem_cons, not_or] at hcalls
    exact ⟨fun count h => (hcalls count).1 h.symm,
      fun call hmem count h => (hcalls count).2 (h ▸ hmem)⟩
  have hbalanced : Safe (fun _ => True) Balanced (run W rounds calls (start outside)) :=
    Safe.sequence (fun call _ s hs _ => (step_balanced W rounds hs call).mono (fun _ _ => trivial)
      fun _ h => h) (balanced_start outside) (stepsMeet_true _ _ _)
  refine (hbalanced.and_of_imp (run_queue_min W rounds outside hcalls)).mono (fun _ h => h)
    fun s ⟨hs, hmin⟩ => ⟨hs.input, fun hmeet => ?_⟩
  refine ⟨(alwaysServes_iff.mpr (hmin hmeet).2).serves, ?_⟩
  simp only [alwaysServes_iff]
  exact step_queue_min W rounds hs.valid (hmin hmeet).2 hcall

/-- Outside there are some bytes to read, and no time to wait. -/
def source : World Str where
  uread w count := (w.drop count, w.take count, .none)
  uread_le w count := length_take_le count w
  uwrite w buf := (w, buf.length)
  uwrite_le _ _ := Nat.le_refl _
  wvtime w := (w, 0)
  time w := (w, 0)
  select w := (w, .well false (!w.isEmpty))

/-- The line has begun when `getline` stops waiting. -/
theorem input_served_iff_getline :
    Safe (fun _ => True) (fun s => s.handed ++ s.inbuf.content = s.tape ∧
        (StepsMeet (step source 3) (fun s call => ¬ StopsWaiting source 3 s call) [.read 1]
            (start (bytes "abc")) → Serves s ∧ Safe (fun _ => True) (fun s' => AlwaysServes s' ↔
              ¬ StopsWaiting source 3 s (.getline 0 10 1024))
            (step source 3 (.getline 0 10 1024) s)))
      (run source 3 [.read 1] (start (bytes "abc"))) :=
  input_served_iff source 3 (bytes "abc") (by simp)

/-- After the time is over two bytes are buffered, and they are not read. -/
theorem getline_then_read_nothing :
    ¬ ∀ calls : List Call, (∀ count, .queuemin count ∉ calls) →
      ∀ s, run source 3 calls (start [97, 98]) = .ok s → s.inbuf.content ≠ [] →
        ∀ s' buf, read source 3 10 s = .ok (s', buf) → buf ≠ [] := by
  intro h
  have heval : (run source 3 [.getline 0 10 1024] (start [97, 98])).toOption.map
      (fun s => (s.inbuf.content, (read source 3 10 s).toOption.map Prod.snd)) =
      some ([97, 98], some []) := by decide +kernel
  cases hrun : run source 3 [.getline 0 10 1024] (start [97, 98]) with
  | error e =>
    rw [hrun] at heval
    cases heval
  | ok s =>
    rw [hrun] at heval
    obtain ⟨hcontent, hread⟩ := Prod.mk.inj (Option.some.inj heval)
    cases hcase : read source 3 10 s with
    | error e =>
      rw [hcase] at hread
      cases hread
    | ok a =>
      rw [hcase] at hread
      exact h [.getline 0 10 1024] (by simp) s hrun (by rw [hcontent]; decide) a.1 a.2 hcase
        (Option.some.inj hread)

end System

end WvStreams
