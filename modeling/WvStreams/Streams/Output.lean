import WvStreams.Streams.Stream

/-!
# Writing to a stream

`write` gives to `uwrite` what it can, puts the rest into the output buffer as far as the limit
lets it, and then flushes. What it puts in front of the flush is `filled`; the flush only keeps
the bytes in order (`Keeps`).
-/

namespace WvStreams

open Lib List

namespace System

variable {ω : Type} (W : World ω)

/-- The bytes that may still be buffered; the difference is one of `size_t`. -/
def canbuffer (s : WvStream) : Nat := (s.max_outbuf_size + 2 ^ 64 - s.outbuf.used) % 2 ^ 64

/-- The first `uwrite` of a `write`, and how much it accepted. -/
def bypass (buf : Str) (s : System ω) : System ω × Nat :=
  if !s.outbuf_delayed_flush && s.outbuf.used == 0 then
    let answer := W.uwrite s.outside buf
    ({ s with outside := answer.1, sent := s.sent ++ buf.take answer.2 }, answer.2)
  else (s, 0)

/-- How much of the rest `write` buffers. -/
def buffered (s : WvStream) (count : Nat) : Nat :=
  if s.max_outbuf_size ≠ 0 then min count (canbuffer s) else count

/-- The part of a `write` in front of its flush, and what it will return. -/
def filled (buf : Str) : Does ω (System ω × Nat) := fun s =>
  let r := bypass W buf s
  let count := buffered r.1.toWvStream (buf.length - r.2)
  if count = 0 then pure r
  else do
    let outbuf ← assertSome (r.1.outbuf.put ((buf.drop r.2).take count))
    pure ({ r.1 with outbuf }, r.2 + count)

def write (rounds : Nat) (buf : Str) : Does ω (System ω × Nat) := fun s =>
  if !s.isok || buf.isEmpty || s.stop_write then pure (s, 0)
  else do
    let (s, wrote) ← filled W buf s
    let (s, _) ← doesIf s.should_flush
      (if s.is_auto_flush then flush W rounds 0 else flush_outbuf W rounds) s
    pure (s, wrote)

/-- Some bytes are sent or buffered behind the others, and nothing else changes. -/
structure Fills (part : Str) (s s' : System ω) : Prop where
  valid : s'.Valid
  output : s'.output = s.output ++ part
  closed : s'.closed = s.closed
  inbuf : s'.inbuf = s.inbuf
  queue_min : s'.queue_min = s.queue_min
  reported : s'.reported = s.reported
  handed : s'.handed = s.handed
  tape : s'.tape = s.tape

theorem fills_bypass (buf : Str) {s : System ω} (hs : s.Valid) :
    (bypass W buf s).2 ≤ buf.length ∧ Fills (buf.take (bypass W buf s).2) s (bypass W buf s).1 := by
  rw [bypass]
  split
  · rename_i hempty
    have hused : s.outbuf.used = 0 := by
      simp only [Bool.and_eq_true, beq_iff_eq] at hempty
      exact hempty.2
    have hnil : s.outbuf.content = [] := length_eq_zero_iff.mp (hs.total.symm.trans hused)
    refine ⟨W.uwrite_le s.outside buf, hs, ?_, rfl, rfl, rfl, rfl, rfl, rfl⟩
    show (s.sent ++ buf.take (W.uwrite s.outside buf).2) ++ s.outbuf.content = _
    rw [output, hnil, append_nil, append_nil]
  · refine ⟨Nat.zero_le _, hs, ?_, rfl, rfl, rfl, rfl, rfl, rfl⟩
    rw [take_zero, append_nil]

theorem buffered_le (s : WvStream) (count : Nat) : buffered s count ≤ count := by
  rw [buffered]
  split
  · exact Nat.min_le_left _ _
  · exact Nat.le_refl _

theorem fills_filled (buf : Str) {s : System ω} (hs : s.Valid) :
    ∃ s' wrote, filled W buf s = .ok (s', wrote) ∧ wrote ≤ buf.length ∧
      Fills (buf.take wrote) s s' := by
  obtain ⟨hle, hfills⟩ := fills_bypass W buf hs
  simp only [filled]
  generalize bypass W buf s = r at hle hfills ⊢
  obtain ⟨r, wrote⟩ := r
  have hcount := buffered_le r.toWvStream (buf.length - wrote)
  generalize buffered r.toWvStream (buf.length - wrote) = count at hcount ⊢
  split
  · exact ⟨r, wrote, rfl, hle, hfills⟩
  · obtain ⟨outbuf, hput, hholds⟩ :=
      WvDynBufStore.put_spec hfills.valid ((buf.drop wrote).take count)
    rw [hput]
    refine ⟨{ r with outbuf }, wrote + count, rfl, by omega, hholds.inv, ?_, hfills.closed,
      hfills.inbuf, hfills.queue_min, hfills.reported, hfills.handed, hfills.tape⟩
    show r.sent ++ outbuf.content = _
    rw [hholds.content_eq, ← append_assoc, take_add, ← append_assoc, ← hfills.output]
    rfl

theorem write_spec (rounds : Nat) (buf : Str) {s : System ω} (hs : s.Valid) :
    Safe (fun s' => ∃ wrote m, Fills (buf.take wrote) s m ∧ Keeps m s')
      (fun a => ∃ m, Fills (buf.take a.2) s m ∧ Keeps m a.1) (write W rounds buf s) := by
  rw [write]
  split
  · refine ⟨s, ⟨hs, ?_, rfl, rfl, rfl, rfl, rfl, rfl⟩, .refl hs⟩
    rw [take_zero, append_nil]
  · obtain ⟨m, wrote, hfilled, -, hfills⟩ := fills_filled W buf hs
    rw [hfilled]
    have hflush : Keeping Prod.fst
        (if m.is_auto_flush then flush W rounds 0 else flush_outbuf W rounds) := by
      split
      · exact keeping_flush W rounds 0
      · exact keeping_flush_outbuf W rounds
    show Safe _ _ (doesIf m.should_flush _ m >>= _)
    exact ((keeping_doesIf hflush m.should_flush m hfills.valid).mono
      (fun s' h => ⟨wrote, m, hfills, h⟩) fun _ h => h).bind fun a h => ⟨m, hfills, h⟩

end System

end WvStreams
