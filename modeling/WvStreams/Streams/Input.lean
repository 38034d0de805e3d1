import WvStreams.Buffers.Peek
import WvStreams.Streams.Stream

/-!
# Reading from a stream

`read` and `getline` take bytes from the input buffer, and `uread` puts bytes behind them. While
`getline` waits for the rest of a line it sets `queue_min` above what is buffered, so that
`select` waits for more; where it stops waiting it leaves it so (`GivesUp`).
-/

namespace WvStreams

open Lib List

/-- `WvBuf::strchr`: the place of a byte, from 1, or 0. -/
def strchr (ch : Byte) : Str → Nat
  | [] => 0
  | b :: rest =>
    if b = ch then 1
    else match strchr ch rest with
      | 0 => 0
      | i + 1 => i + 2

theorem strchr_cases (ch : Byte) (s : Str) :
    strchr ch s = 0 ∨ ∃ front rest, s = front ++ ch :: rest ∧ strchr ch s = front.length + 1 := by
  induction s with
  | nil => exact .inl rfl
  | cons b rest ih =>
    rw [strchr]
    split
    · rename_i hb
      subst hb
      exact .inr ⟨[], rest, rfl, rfl⟩
    · rcases ih with hzero | ⟨front, back, hrest, hplace⟩
      · rw [hzero]
        exact .inl rfl
      · rw [hplace]
        exact .inr ⟨b :: front, back, by rw [hrest]; rfl, rfl⟩

namespace System

variable {ω : Type} (W : World ω) (rounds : Nat)

/-- What `uread` did to the stream. -/
def troubled : Trouble → Does ω (System ω)
  | .none => pure
  | .noread => noread W rounds
  | .close => close W rounds

def uread (count : Nat) : Does ω (System ω × Str) := fun s => do
  let answer := W.uread s.outside count
  let s ← troubled W rounds answer.2.2 { s with outside := answer.1 }
  pure ({ s with tape := s.tape ++ answer.2.1 }, answer.2.1)

/-- The part of `read` that fills the buffer up to `queue_min`. What was allocated holds what was
read, and the rest is given back. -/
def fill : Does ω (System ω) := fun s =>
  let bufu := s.inbuf.content.length
  if bufu < s.queue_min then do
    let count := s.queue_min - bufu
    let (s, chunk) ← uread W rounds count { s with inbuf := s.inbuf.put (replicate count 0) }
    pure { s with inbuf := (s.inbuf.unalloc count).put chunk }
  else pure s

/-- `read`, which returns the bytes that it put into `buf`. -/
def read (count : Nat) : Does ω (System ω × Str) := fun s => do
  let s ← fill W rounds s
  let bufu := s.inbuf.content.length
  if bufu < s.queue_min then do
    let s ← maybe_autoclose (close W rounds) s
    pure (s, [])
  else if bufu = 0 then do
    let (s, buf) ← uread W rounds count s
    let s ← maybe_autoclose (close W rounds) s
    pure (s, buf)
  else do
    let bufu := min bufu count
    let buf := s.inbuf.content.take bufu
    let s ← maybe_autoclose (close W rounds) { s with inbuf := s.inbuf.get bufu }
    pure (s, buf)

/-- `unread` of the bytes that are merged from the caller's buffer. -/
def unread (unreadbuf : Str) (s : System ω) : System ω :=
  let tmp : Queue := (Queue.put ⟨[], []⟩ unreadbuf).put s.inbuf.content
  { s with inbuf := Queue.put ⟨[], []⟩ tmp.content }

/-- The part of `blocking_getline` that reads a few bytes, and whether there were some. -/
def read_few (readahead : Nat) (hasdata : Bool) : Does ω (System ω × Bool) := fun s =>
  if hasdata then do
    let (s, chunk) ← uread W rounds readahead s
    pure ({ s with inbuf := s.inbuf.put chunk }, !chunk.isEmpty)
  else pure (s, false)

def remaining (timeout_time wait_msec : Int) (s : System ω) : System ω × Int :=
  if 0 < wait_msec then
    let answer := W.wvtime s.outside
    ({ s with outside := answer.1 }, max (timeout_time - answer.2) 0)
  else (s, wait_msec)

/-- The rest of a round of `blocking_getline` in which it has to wait. The loop is left with the
data that there are, or with nothing because the time is over. A `continue_select` is like a
`select` here. -/
def wait_more (readahead : Nat) (timeout_time wait_msec : Int) :
    Does ω (System ω × Int ⊕ System ω × Bool) := fun s => do
  let (s, wait_msec) := remaining W timeout_time wait_msec
    { s with queue_min := s.inbuf.content.length + 1 }
  let (s, hasdata) ← select W rounds s
  if !s.isok then pure (.inr (s, true))
  else do
    let (s, hasdata) ← read_few W rounds readahead hasdata s
    if !s.isok then pure (.inr (s, true))
    else if !hasdata && wait_msec == 0 then pure (.inr (s, false))
    else pure (.inl (s, wait_msec))

def waiting (separator : Byte) (s : WvStream) : Bool :=
  s.isok && strchr separator s.inbuf.content == 0 && !s.stop_read

def getline_round (separator : Byte) (readahead : Nat) (timeout_time : Int) :
    System ω × Int → Except (Stop (System ω)) (System ω × Int ⊕ System ω × Bool)
  | (s, wait_msec) =>
    if !s.isok then pure (.inr (s, true))
    else
      let s : System ω := { s with queue_min := 0 }
      if waiting separator s.toWvStream then
        wait_more W rounds readahead timeout_time wait_msec s
      else pure (.inr (s, true))

/-- The line that is in the buffer when the loop is left: the bytes at the pointer, with the
terminating NUL, and whether the NUL stands in the place of the separator. -/
def take_line (separator : Byte) : Does ω (System ω × Option (Str × Bool)) := fun s =>
  let i := strchr separator s.inbuf.content
  if s.inbuf.content.length = 0 then pure (s, none)
  else if 0 < i then
    if s.inbuf.peek (i - 1 : Nat) 1 = [separator] then
      let eol := s.inbuf.write (i - 1 : Nat) [0]
      pure ({ s with inbuf := eol.get i }, some (eol.content.take i, true))
    else .error .failed
  else
    -- the end of the file without a separator
    let inbuf := s.inbuf.put [0]
    pure ({ s with inbuf := inbuf.get inbuf.content.length }, some (inbuf.content, false))

/-- What `blocking_getline` does in front of its loop, and its `timeout_time`. -/
def getline_start (wait_msec : Int) : Does ω (System ω × Int) := fun s => do
  let answer := W.wvtime s.outside
  let s := if 0 < wait_msec then { s with outside := answer.1 } else s
  let s ← maybe_autoclose (close W rounds) s
  pure (s, if 0 < wait_msec then answer.2 + wait_msec else 0)

def blocking_getline (wait_msec : Int) (separator : Byte) (readahead : Nat) :
    Does ω (System ω × Option (Str × Bool)) := fun s => do
  let (s, timeout_time) ← getline_start W rounds wait_msec s
  let (s, line) ← iterate Prod.fst (getline_round W rounds separator readahead timeout_time)
    (rounds + 1) (s, wait_msec)
  if line then take_line separator s else pure (s, none)

/-! ## The bytes -/

/-- The output is kept, as it is by `Keeps`. -/
structure KeepsOutput (s s' : System ω) : Prop where
  valid : s'.Valid
  output : s'.closed = false → s.closed = false ∧ s'.output = s.output
  reported : s'.reported = s.reported

/-- What is handed out and what is left are what was there and what was delivered. -/
structure Reads (s : System ω) (out : Str) (s' : System ω) : Prop extends KeepsOutput s s' where
  handed : s'.handed = s.handed
  input : ∃ more, s'.tape = s.tape ++ more ∧ out ++ s'.inbuf.content = s.inbuf.content ++ more

theorem Keeps.keepsOutput {s s' : System ω} (h : Keeps s s') : KeepsOutput s s' :=
  ⟨h.valid, h.output, h.reported⟩

variable {s₁ s₂ s₃ : System ω}

theorem KeepsOutput.trans (h : KeepsOutput s₁ s₂) (h' : KeepsOutput s₂ s₃) :
    KeepsOutput s₁ s₃ where
  valid := h'.valid
  output hopen := by
    obtain ⟨hopen₂, hout₂⟩ := h'.output hopen
    obtain ⟨hopen₁, hout₁⟩ := h.output hopen₂
    exact ⟨hopen₁, hout₂.trans hout₁⟩
  reported := h'.reported.trans h.reported

theorem Keeps.reads {s s' : System ω} (h : Keeps s s') : Reads s [] s' :=
  ⟨h.keepsOutput, h.handed, [], by rw [h.tape, append_nil], by
    rw [h.inbuf, append_nil, nil_append]⟩

theorem Reads.trans {out out' : Str} (h : Reads s₁ out s₂)
    (h' : Reads s₂ out' s₃) : Reads s₁ (out ++ out') s₃ := by
  obtain ⟨more, htape, hleft⟩ := h.input
  obtain ⟨more', htape', hleft'⟩ := h'.input
  refine ⟨h.toKeepsOutput.trans h'.toKeepsOutput, h'.handed.trans h.handed, more ++ more', ?_, ?_⟩
  · rw [htape', htape, append_assoc]
  · rw [append_assoc, hleft', ← append_assoc, hleft, append_assoc]

theorem Reads.after {out : Str} (h' : Reads s₂ out s₃) (h : Reads s₁ [] s₂) :
    Reads s₁ out s₃ := h.trans h'

section Specs

variable {W rounds}

theorem keeping_troubled (trouble : Trouble) : Keeping id (troubled W rounds trouble) := by
  cases trouble with
  | none => exact fun s hs => Keeps.refl hs
  | noread => exact keeping_noread W rounds
  | close => exact keeping_close W rounds

theorem uread_spec (s : System ω) (hs : s.Valid) (count : Nat) :
    Safe (Keeps s) (fun a => Keeps { s with tape := s.tape ++ a.2 } a.1)
      (uread W rounds count s) := by
  have hstart : Keeps s { s with outside := (W.uread s.outside count).1 } :=
    (Keeps.refl hs).congr rfl
  refine ((keeping_troubled _).from hstart).bind fun r h => ?_
  exact ⟨h.valid, h.output, h.inbuf, h.queue_min, h.reported, h.handed,
    congrArg (· ++ (W.uread s.outside count).2.1) h.tape⟩

variable {s : System ω}

theorem fill_spec (hs : s.Valid) :
    Safe (KeepsOutput s) (fun r => Reads s [] r ∧ r.queue_min = s.queue_min) (fill W rounds s) := by
  simp only [fill]
  split
  · have huread := @uread_spec ω W rounds
      { s with inbuf := s.inbuf.put (replicate (s.queue_min - s.inbuf.content.length) 0) } hs
      (s.queue_min - s.inbuf.content.length)
    refine (huread.mono (fun r h => ⟨h.valid, h.output, h.reported⟩) fun _ h => h).bind
      fun a h => ?_
    refine ⟨⟨⟨h.valid, h.output, h.reported⟩, h.handed, a.2, h.tape, ?_⟩, h.queue_min⟩
    show [] ++ (a.1.inbuf.content.take _ ++ a.2) = _
    rw [h.inbuf]
    show (s.inbuf.content ++ replicate _ 0).take _ ++ a.2 = _
    rw [take_left']
    show _ = (_ ++ replicate _ (0 : Byte)).length - _
    rw [length_append, length_replicate, Nat.add_sub_cancel]
  · exact ⟨(Keeps.refl hs).reads, rfl⟩

theorem reads_autoclose {r : System ω} {out : Str} (h : Reads s out r) :
    Safe (KeepsOutput s) (fun r' => Reads s out r' ∧ r'.queue_min = r.queue_min)
      (maybe_autoclose (close W rounds) r) := by
  refine (keeping_maybe_autoclose (keeping_close W rounds) r h.valid).mono
    (fun r' h' => h.toKeepsOutput.trans h'.keepsOutput) fun r' h' => ⟨?_, h'.queue_min⟩
  rw [← append_nil out]
  exact h.trans h'.reads

theorem reads_uread {s : System ω} (hs : s.Valid) (hempty : s.inbuf.content = []) (count : Nat) :
    Safe (KeepsOutput s) (fun a => Reads s a.2 a.1 ∧ a.1.queue_min = s.queue_min)
      (uread W rounds count s) := by
  refine (uread_spec s hs count).mono (fun r h => h.keepsOutput) fun a h => ⟨?_, h.queue_min⟩
  refine ⟨⟨h.valid, h.output, h.reported⟩, h.handed, a.2, h.tape, ?_⟩
  have hinbuf : a.1.inbuf = s.inbuf := h.inbuf
  rw [hinbuf, hempty, append_nil, nil_append]

theorem read_spec (hs : s.Valid) (count : Nat) :
    Safe (KeepsOutput s) (fun a => Reads s a.2 a.1 ∧ a.1.queue_min = s.queue_min)
      (read W rounds count s) := by
  refine (fill_spec hs).bind fun r ⟨hfill, hmin⟩ => ?_
  dsimp only
  split
  · refine (reads_autoclose hfill).bind fun r' ⟨h', hmin'⟩ => ?_
    exact ⟨h', hmin'.trans hmin⟩
  split
  · rename_i hzero
    have huread := @reads_uread ω W rounds r hfill.valid (length_eq_zero_iff.mp hzero) count
    refine (huread.mono (fun _ h => hfill.toKeepsOutput.trans h) fun _ h => h).bind
      fun a ⟨ha, hmina⟩ => ?_
    refine (reads_autoclose (ha.after hfill)).bind fun r' ⟨h', hmin'⟩ => ?_
    exact ⟨h', hmin'.trans (hmina.trans hmin)⟩
  · have htaken : Reads r (r.inbuf.content.take (min r.inbuf.content.length count))
        { r with inbuf := r.inbuf.get (min r.inbuf.content.length count) } := by
      refine ⟨⟨hfill.valid, fun hopen => ⟨hopen, rfl⟩, rfl⟩, rfl, [], ?_, ?_⟩
      · rw [append_nil]
      · rw [append_nil]
        exact take_append_drop _ _
    refine (reads_autoclose (htaken.after hfill)).bind fun r' ⟨h', hmin'⟩ => ?_
    exact ⟨h', hmin'.trans hmin⟩

theorem read_few_spec (hs : s.Valid) (readahead : Nat) (hasdata : Bool) :
    Safe (KeepsOutput s) (fun a => Reads s [] a.1 ∧ a.1.queue_min = s.queue_min)
      (read_few W rounds readahead hasdata s) := by
  rw [read_few]
  split
  · refine ((uread_spec s hs readahead).mono (fun r h => h.keepsOutput) fun _ h => h).bind
      fun a h => ?_
    refine ⟨⟨⟨h.valid, h.output, h.reported⟩, h.handed, a.2, h.tape, ?_⟩, h.queue_min⟩
    show [] ++ (a.1.inbuf.content ++ a.2) = _
    rw [h.inbuf]
    rfl
  · exact ⟨(Keeps.refl hs).reads, rfl⟩

theorem wait_more_spec (hs : s.Valid) (readahead : Nat) (timeout_time wait_msec : Int) :
    Safe (KeepsOutput s) (Sum.elim (fun a => Reads s [] a.1 ∧ a.1.isok = true)
      fun a => Reads s [] a.1 ∧ a.1.queue_min = s.inbuf.content.length + 1)
      (wait_more W rounds readahead timeout_time wait_msec s) := by
  rw [wait_more]
  generalize hstart : remaining W timeout_time wait_msec
    { s with queue_min := s.inbuf.content.length + 1 } = start
  obtain ⟨s₁, wait_msec⟩ := start
  have h₁ : Reads s [] s₁ ∧ s₁.queue_min = s.inbuf.content.length + 1 := by
    rw [remaining] at hstart
    have hkept : ∀ outside, Reads s []
        { s with outside, queue_min := s.inbuf.content.length + 1 } := fun outside =>
      ⟨⟨hs, fun hopen => ⟨hopen, rfl⟩, rfl⟩, rfl, [], by rw [append_nil], by
        rw [append_nil, nil_append]⟩
    split at hstart <;> cases hstart
    · exact ⟨hkept _, rfl⟩
    · exact ⟨hkept _, rfl⟩
  refine ((keeping_select W rounds s₁ h₁.1.valid).mono
    (fun _ h => h₁.1.toKeepsOutput.trans h.keepsOutput) fun _ h => h).bind fun a h₂ => ?_
  obtain ⟨s₂, hasdata⟩ := a
  have h₂' : Reads s [] s₂ ∧ s₂.queue_min = s.inbuf.content.length + 1 :=
    ⟨h₂.reads.after h₁.1, h₂.queue_min.trans h₁.2⟩
  dsimp only
  split
  · exact h₂'
  · refine ((read_few_spec h₂'.1.valid readahead hasdata).mono
      (fun _ h => h₂'.1.toKeepsOutput.trans h) fun _ h => h).bind fun a ⟨h₃, hmin₃⟩ => ?_
    obtain ⟨s₃, hasdata⟩ := a
    have h₃' : Reads s [] s₃ ∧ s₃.queue_min = s.inbuf.content.length + 1 :=
      ⟨h₃.after h₂'.1, hmin₃.trans h₂'.2⟩
    split
    · exact h₃'
    · rename_i hok
      split
      · exact h₃'
      · exact ⟨h₃'.1, by simpa only [Bool.not_eq_true', Bool.not_eq_false] using hok⟩

/-- How the loop is left from a state: after a wait, or without one. -/
def Left (separator : Byte) (s s' : System ω) : Prop :=
  (waiting separator s.toWvStream = true ∧ s'.queue_min = s.inbuf.content.length + 1) ∨
    (waiting separator s.toWvStream = false ∧ (s'.queue_min = 0 ∨
      s.isok = false ∧ s'.queue_min = s.queue_min))

theorem getline_round_spec {s : System ω} (hs : s.Valid) (separator : Byte) (readahead : Nat)
    (timeout_time wait_msec : Int) :
    Safe (KeepsOutput s) (Sum.elim (fun a => Reads s [] a.1 ∧ a.1.isok = true)
      fun a => Reads s [] a.1 ∧ Left separator s a.1)
      (getline_round W rounds separator readahead timeout_time (s, wait_msec)) := by
  have hzero : Reads s [] { s with queue_min := 0 } :=
    ⟨⟨hs, fun hopen => ⟨hopen, rfl⟩, rfl⟩, rfl, [], by rw [append_nil], by
      rw [append_nil, nil_append]⟩
  rw [getline_round]
  split
  · rename_i hclosed
    rw [Bool.not_eq_true'] at hclosed
    refine ⟨(Keeps.refl hs).reads, .inr ⟨?_, .inr ⟨hclosed, rfl⟩⟩⟩
    rw [waiting, hclosed, Bool.false_and, Bool.false_and]
  dsimp only
  split
  · rename_i hwaiting
    refine (wait_more_spec hzero.valid readahead timeout_time wait_msec).mono
      (fun r h => hzero.toKeepsOutput.trans h) fun a h => ?_
    match a, h with
    | .inl a, h => exact ⟨h.1.after hzero, h.2⟩
    | .inr a, h => exact ⟨h.1.after hzero, .inl ⟨hwaiting, h.2⟩⟩
  · rename_i hwaiting
    exact ⟨hzero, .inr ⟨Bool.eq_false_iff.mpr hwaiting, .inl rfl⟩⟩

/-- The bytes that a line takes from the buffer, with the separator in place of the NUL. -/
def taken (separator : Byte) : Option (Str × Bool) → Str
  | none => []
  | some (line, true) => line.dropLast ++ [separator]
  | some (line, false) => line.dropLast

theorem take_line_spec (hs : s.Valid) (separator : Byte) :
    ∃ s' line, take_line separator s = .ok (s', line) ∧ Reads s (taken separator line) s' ∧
      s'.queue_min = s.queue_min := by
  have hkept : ∀ inbuf out, out ++ inbuf.content = s.inbuf.content → Reads s out { s with inbuf } :=
    fun inbuf out h => ⟨⟨hs, fun hopen => ⟨hopen, rfl⟩, rfl⟩, rfl, [], by rw [append_nil], by
      rw [append_nil, h]⟩
  simp only [take_line]
  split
  · exact ⟨s, none, rfl, (Keeps.refl hs).reads, rfl⟩
  rcases strchr_cases separator s.inbuf.content with hzero | ⟨front, rest, hcontent, hplace⟩
  · rw [hzero, if_neg (Nat.lt_irrefl 0)]
    refine ⟨_, _, rfl, ?_, rfl⟩
    refine hkept _ _ ?_
    show (s.inbuf.content ++ [0]).dropLast ++
      (s.inbuf.content ++ [0]).drop (s.inbuf.content ++ [0]).length = _
    rw [dropLast_concat, drop_length, append_nil]
  · have hbuf : s.inbuf = ⟨s.inbuf.history, front ++ [separator] ++ rest⟩ := by
      rw [append_assoc]
      exact congrArg (Queue.mk s.inbuf.history) hcontent
    have hpeek : s.inbuf.peek (front.length : Nat) 1 = [separator] := by
      rw [hbuf]
      exact @Queue.peek_within s.inbuf.history front [separator] rest 0 1 (Nat.le_refl 1)
    have hwrite : s.inbuf.write (front.length : Nat) [0] =
        ⟨s.inbuf.history, front ++ [0] ++ rest⟩ := by
      rw [hbuf]
      exact @Queue.write_within s.inbuf.history front [separator] rest [0] 0 (Nat.le_refl 1)
    have hlen : (front ++ [(0 : Byte)]).length = front.length + 1 := by
      rw [length_append, length_singleton]
    rw [hplace, if_pos (Nat.succ_pos _), Nat.add_sub_cancel, if_pos hpeek]
    refine ⟨_, _, rfl, hkept _ _ ?_, rfl⟩
    rw [hwrite]
    show ((front ++ [0] ++ rest).take (front.length + 1)).dropLast ++ [separator] ++
      (front ++ [0] ++ rest).drop (front.length + 1) = _
    rw [← hlen, take_left, drop_left, dropLast_concat, append_assoc, hcontent]
    rfl

theorem getline_start_spec {s : System ω} (hs : s.Valid) (wait_msec : Int) :
    Safe (KeepsOutput s) (fun a => Reads s [] a.1 ∧ a.1.queue_min = s.queue_min)
      (getline_start W rounds wait_msec s) := by
  simp only [getline_start]
  generalize hstart : (if 0 < wait_msec then
    { s with outside := (W.wvtime s.outside).1 } else s) = start
  have hkeeps : Keeps s start := by
    rw [← hstart]
    split
    · exact (Keeps.refl hs).congr rfl
    · exact .refl hs
  exact (reads_autoclose hkeeps.reads).bind fun r h => ⟨h.1, h.2.trans hkeeps.queue_min⟩

theorem getline_loop_spec {s r : System ω} (h : Reads s [] r) (separator : Byte) (readahead : Nat)
    (timeout_time wait_msec : Int) (n : Nat) :
    Safe (KeepsOutput s) (fun a => Reads s [] a.1)
      (iterate Prod.fst (getline_round W rounds separator readahead timeout_time) n
        (r, wait_msec)) := by
  refine Safe.iterate (a := (r, wait_msec)) (I := fun a : System ω × Int => Reads s [] a.1)
    (fun a ha => ha.toKeepsOutput) (fun a ha => ?_) h n
  refine (getline_round_spec ha.valid separator readahead timeout_time a.2).mono
    (fun _ h => ha.toKeepsOutput.trans h) fun b hb => ?_
  match b, hb with
  | .inl b, hb => exact hb.1.after ha
  | .inr b, hb => exact hb.1.after ha

theorem blocking_getline_spec {s : System ω} (hs : s.Valid) (wait_msec : Int) (separator : Byte)
    (readahead : Nat) :
    Safe (KeepsOutput s) (fun a => Reads s (taken separator a.2) a.1)
      (blocking_getline W rounds wait_msec separator readahead s) := by
  refine (getline_start_spec hs wait_msec).bind fun a ⟨h, _⟩ => ?_
  obtain ⟨r, timeout_time⟩ := a
  refine (getline_loop_spec h separator readahead timeout_time wait_msec _).bind fun a ha => ?_
  obtain ⟨r₁, line⟩ := a
  dsimp only
  split
  · obtain ⟨r₂, line, hline, hreads, -⟩ := take_line_spec ha.valid separator
    rw [hline]
    exact hreads.after ha
  · exact ha

end Specs

/-! ## `queue_min` -/

/-- The loop ends in a wait, with bytes in the buffer that it waited to see more of: the time is
over, or the stream is no longer ok. -/
def GivesUpIn (separator : Byte) (readahead : Nat) (timeout_time : Int) :
    Nat → System ω × Int → Prop
  | 0, _ => False
  | n + 1, a =>
    match getline_round W rounds separator readahead timeout_time a with
    | .ok (.inl a) => GivesUpIn separator readahead timeout_time n a
    | .ok (.inr _) => waiting separator a.1.toWvStream = true ∧ a.1.inbuf.content ≠ []
    | .error _ => False

def GivesUp (wait_msec : Int) (separator : Byte) (readahead : Nat) (s : System ω) : Prop :=
  match getline_start W rounds wait_msec s with
  | .ok (s, timeout_time) =>
    GivesUpIn W rounds separator readahead timeout_time (rounds + 1) (s, wait_msec)
  | .error _ => False

/-- Where a read of some bytes is not stuck: it returns at least one if some are buffered,
whatever is outside of the stream. -/
def Serves (s : System ω) : Prop :=
  s.inbuf.content ≠ [] → ∀ (V : World ω) (rounds count : Nat), 0 < count →
    ∃ s' buf, read V rounds count s = .ok (s', buf) ∧ buf ≠ []

def AlwaysServes (s : System ω) : Prop := ∀ inbuf, Serves { s with inbuf }

theorem AlwaysServes.serves {s : System ω} (h : AlwaysServes s) : Serves s := h s.inbuf

section QueueMin

variable {W rounds}

theorem loop_queue_min {separator : Byte} {readahead : Nat} {timeout_time : Int} {n : Nat}
    {a : System ω × Int} (hs : a.1.Valid) (hmin : a.1.isok = true ∨ a.1.queue_min ≤ 1)
    {r : System ω × Bool}
    (hr : iterate Prod.fst (getline_round W rounds separator readahead timeout_time) n a = .ok r) :
    r.1.queue_min ≤ 1 ↔ ¬ GivesUpIn W rounds separator readahead timeout_time n a := by
  induction n generalizing a with
  | zero => cases hr
  | succ n ih =>
    obtain ⟨s, wait_msec⟩ := a
    have hround := @getline_round_spec ω W rounds s hs separator readahead timeout_time wait_msec
    rw [Lib.iterate] at hr
    rw [GivesUpIn]
    cases hcase : getline_round W rounds separator readahead timeout_time (s, wait_msec) with
    | error e =>
      rw [hcase] at hr
      cases hr
    | ok b =>
      rw [hcase] at hr hround
      cases b with
      | inl a => exact ih hround.1.valid (.inl hround.2) hr
      | inr b =>
        cases hr
        rcases hround.2 with ⟨hwaiting, hset⟩ | ⟨hleft, hset⟩
        · rw [hset, hwaiting, ← length_pos_iff]
          simp only [true_and]
          omega
        · rw [hleft]
          simp only [Bool.false_eq_true, false_and, not_false_eq_true, iff_true]
          rcases hset with hset | ⟨hclosed, hset⟩
          · omega
          · rw [hset]
            exact hmin.resolve_left (by rw [hclosed]; exact Bool.false_ne_true)

variable {s : System ω}

theorem blocking_getline_queue_min (hs : s.Valid) (hmin : s.queue_min ≤ 1) {wait_msec : Int}
    {separator : Byte} {readahead : Nat} {a : System ω × Option (Str × Bool)}
    (hline : blocking_getline W rounds wait_msec separator readahead s = .ok a) :
    a.1.queue_min ≤ 1 ↔ ¬ GivesUp W rounds wait_msec separator readahead s := by
  have hstart := @getline_start_spec ω W rounds s hs wait_msec
  rw [blocking_getline] at hline
  rw [GivesUp]
  cases hcase : getline_start W rounds wait_msec s with
  | error e =>
    rw [hcase] at hline
    cases hline
  | ok a =>
    obtain ⟨r, timeout_time⟩ := a
    rw [hcase] at hline hstart
    obtain ⟨hreads, hkept⟩ := hstart
    change (iterate _ _ (rounds + 1) (r, wait_msec) >>= _) = _ at hline
    cases hloop : iterate Prod.fst (getline_round W rounds separator readahead timeout_time)
        (rounds + 1) (r, wait_msec) with
    | error e =>
      rw [hloop] at hline
      cases hline
    | ok b =>
      have hvalid := @getline_loop_spec ω W rounds s r hreads separator readahead timeout_time
        wait_msec (rounds + 1)
      have hiff := loop_queue_min (a := (r, wait_msec)) hreads.valid
        (.inr (hkept.trans_le hmin)) hloop
      rw [hloop] at hline hvalid
      rw [← hiff]
      obtain ⟨r₁, found⟩ := b
      cases found with
      | false =>
        cases hline
        rfl
      | true =>
        obtain ⟨r₂, line', htake, -, hkept'⟩ := take_line_spec hvalid.valid separator
        change take_line separator r₁ = _ at hline
        rw [htake] at hline
        cases hline
        rw [hkept']

theorem maybe_autoclose_returns {close : Does ω (System ω)} {s : System ω}
    (hclose : s.outbuf.used = 0 → Returns (close s)) : Returns (maybe_autoclose close s) := by
  rw [maybe_autoclose]
  split
  · rename_i hauto
    simp only [Bool.and_eq_true, beq_iff_eq] at hauto
    exact hclose hauto.1.1.2
  · exact ⟨s, rfl⟩

theorem autoclose_returns (s : System ω) : Returns (autoclose W closeFlushing s) := by
  rw [autoclose]
  split
  · dsimp only
    split
    · exact ⟨_, rfl⟩
    · exact ⟨_, rfl⟩
  · exact ⟨s, rfl⟩

theorem flush_returns (msec_timeout : Int) (hused : s.outbuf.used = 0) :
    Returns (flush W rounds msec_timeout s) := by
  have hclose : ∀ s : System ω, Returns (maybe_autoclose closeFlushing s) :=
    fun s => maybe_autoclose_returns fun _ => ⟨_, rfl⟩
  rw [flush]
  split
  · exact ⟨_, rfl⟩
  refine Returns.bind ?_ fun a => ⟨_, rfl⟩
  rw [flush_outbufWith]
  simp only [hused, bne_self_eq_false]
  split
  · exact (hclose _).bind fun s => ⟨_, rfl⟩
  · refine Returns.bind ?_ fun a => ?_
    · rw [Lib.iterate, flush_round]
      simp only [Bool.false_and]
      exact ⟨_, rfl⟩
    · exact (autoclose_returns _).bind fun s => (hclose _).bind fun s => ⟨_, rfl⟩

theorem close_returns (hused : s.outbuf.used = 0) : Returns (close W rounds s) :=
  (flush_returns 2000 hused).bind fun _ => ⟨_, rfl⟩

theorem serves_of_le (hmin : s.queue_min ≤ s.inbuf.content.length) : Serves s := by
  intro hne V rounds count hcount
  have hlen := length_pos_iff.mpr hne
  obtain ⟨s', hs'⟩ := @maybe_autoclose_returns ω (close V rounds)
    { s with inbuf := s.inbuf.get (min s.inbuf.content.length count) } close_returns
  refine ⟨s', s.inbuf.content.take (min s.inbuf.content.length count), ?_, ?_⟩
  · have hfill : fill V rounds s = .ok s := by
      simp only [fill, if_neg (Nat.not_lt.mpr hmin)]
      rfl
    rw [read, hfill]
    show (if _ then _ else if _ then _ else _ : Except _ _) = _
    rw [if_neg (Nat.not_lt.mpr hmin), if_neg (Nat.ne_of_gt hlen)]
    show (maybe_autoclose _ _ >>= _) = _
    rw [hs']
    rfl
  · rw [← length_pos_iff, length_take]
    omega

def silent : World ω where
  uread w _ := (w, [], .none)
  uread_le _ _ := Nat.zero_le _
  uwrite w _ := (w, 0)
  uwrite_le _ _ := Nat.zero_le _
  wvtime w := (w, 0)
  time w := (w, 0)
  select w := (w, .interrupted)

theorem put_unalloc (q : Queue) (s : Str) : ((q.put s).unalloc s.length).put [] = q := by
  have hcontent : (q.content ++ s).take ((q.content ++ s).length - s.length) ++ [] = q.content := by
    rw [append_nil, length_append, Nat.add_sub_cancel, take_left]
  exact congrArg (Queue.mk q.history) hcontent

theorem fill_silent (s : System ω) : fill silent rounds s = .ok s := by
  simp only [fill]
  split
  · have hback := put_unalloc s.inbuf (replicate (s.queue_min - s.inbuf.content.length) 0)
    rw [length_replicate] at hback
    show Except.ok
      { s with inbuf := ((s.inbuf.put _).unalloc _).put [], tape := s.tape ++ [] } = _
    rw [hback, append_nil]
  · rfl

theorem read_silent (hne : s.inbuf.content ≠ []) (hmin : s.inbuf.content.length < s.queue_min)
    (count : Nat) : read silent rounds count s = .ok (s, []) := by
  have hopen : maybe_autoclose (close silent rounds) s = .ok s := by
    rw [maybe_autoclose, if_neg]
    · rfl
    · simp [hne]
  rw [read, fill_silent]
  show (if _ then _ else _ : Except _ _) = _
  rw [if_pos hmin, hopen]
  rfl

theorem alwaysServes_iff : AlwaysServes s ↔ s.queue_min ≤ 1 := by
  constructor
  · intro h
    by_contra hmin
    have hne : ([0] : Str) ≠ [] := cons_ne_nil _ _
    obtain ⟨s', buf, hread, hbuf⟩ := h ⟨[], [0]⟩ hne silent 0 1 Nat.one_pos
    rw [read_silent hne (Nat.lt_of_not_le hmin)] at hread
    cases hread
    exact hbuf rfl
  · intro hmin inbuf hne
    exact serves_of_le (hmin.trans (length_pos_iff.mpr hne)) hne

end QueueMin

end System

end WvStreams
