import WvStreams.Streams.EncoderStream.Output

/-!
# Reading from a `WvEncoderStream`

Decoded data are in `readoutbuf` and behind that in `inbuf`; `close` moves all of them to `inbuf`.
It does so at the end of the input, and this is wrong in three cases: when the memory that `read`
has just allocated in `inbuf` comes in between, when the callback of the cloned stream comes
before the bytes that it delivers, and when the cloned stream still delivers bytes after it was
seen not to be ok. `ReadsWell` is that none of them happens.
-/

namespace WvStreams

open List Bool

open WvEncoderChain

open WvEncoder (Virtual)

namespace WvEncoderStream

variable {ω κ : Type} {v : Virtual ω} {W : Cloned κ}

def decoded (returned : Str) (s : WvEncoderStream ω κ) : Str :=
  returned ++ s.inbuf ++ s.readoutbuf

/-- Where the data are that were delivered. -/
inductive Gets (c : Steady v) (returned : Str) (s : WvEncoderStream ω κ) : Prop where
  | coming (hgo : s.readchain.finished = false) (e : WvEncoderChain ω)
      (halike : WvEncoderChain.Alike e s.readchain)
      (hfed : (WvEncoderChain.chain v).Fed (WvEncoderChain.new c.encoders) s.input e s.readinbuf
        (s.decoded returned))
  | ended (hend : s.readchain.finished = true) (hdecoded : s.decoded returned = c.output s.input)

structure Receives (c : Steady v) (returned : Str) (s : WvEncoderStream ω κ) : Prop where
  gets : Gets c returned s
  ran : WvEncoderChain.Ran s.readchain ∨
    (WvEncoderChain.Unused s.readchain ∧ s.decoded returned = [])
  closed : s.closed = true → s.readchain.finished = true ∧ s.readoutbuf = []

section

variable {c : Steady v} {returned : Str} {s : WvEncoderStream ω κ}

variable {size : Nat} {r : WvEncoderStream ω κ}

theorem Receives.congr (h : Receives c returned s) {returned' : Str}
    (hdecoded : r.decoded returned' = s.decoded returned) (hreadchain : r.readchain = s.readchain)
    (hreadinbuf : r.readinbuf = s.readinbuf) (hinput : r.input = s.input)
    (hclosed : r.closed = true → s.readchain.finished = true ∧ r.readoutbuf = []) :
    Receives c returned' r where
  gets := by
    cases h.gets with
    | coming hgo e halike hfed =>
      refine .coming (hreadchain ▸ hgo) e (hreadchain ▸ halike) ?_
      rw [hinput, hreadinbuf, hdecoded]
      exact hfed
    | ended hend hout => exact .ended (hreadchain ▸ hend) (by rw [hdecoded, hinput, hout])
  ran := by
    rw [hreadchain, hdecoded]
    exact h.ran
  closed hc := ⟨hreadchain ▸ (hclosed hc).1, (hclosed hc).2⟩

theorem Receives.finished_of_ended (h : Receives c returned s) (hend : s.readchain.finished = true) :
    s.decoded returned = c.output s.input := by
  cases h.gets with
  | coming hgo =>
    rw [hend] at hgo
    exact Bool.noConfusion hgo
  | ended _ hdecoded => exact hdecoded

theorem Receives.decoded_begins (h : Receives c returned s) {more : Str}
    (hmore : more = [] ∨ s.readchain.finished = false) :
    s.decoded returned <+: c.output (s.input ++ more) := by
  cases h.gets with
  | coming hgo e halike hfed => exact hfed.out_prefix c.independent more
  | ended hend hdecoded =>
    have hnone : more = [] := hmore.resolve_right fun hgo =>
      absurd (hend.symm.trans hgo) true_eq_false_eq_False
    rw [hnone, append_nil, hdecoded]

theorem Receives.returned_begins (h : Receives c returned s) {more : Str}
    (hmore : more = [] ∨ s.readchain.finished = false) :
    returned <+: c.output (s.input ++ more) := by
  refine .trans ?_ (h.decoded_begins hmore)
  rw [decoded, append_assoc]
  exact prefix_append _ _

/-- Nothing comes behind all that is decoded. -/
theorem Receives.readoutbuf_eq (h : Receives c returned s)
    (hall : returned ++ s.inbuf = c.output s.input) : s.readoutbuf = [] := by
  have hlength := (h.decoded_begins (.inl rfl)).length_le
  rw [append_nil, ← hall, decoded, append_assoc, ← append_assoc returned] at hlength
  simp only [length_append] at hlength
  exact length_eq_zero_iff.mp (by omega)

/-- What the chain would put out if it had been given `buf` as well. -/
theorem Receives.decoded_drain (h : Receives c returned s) (hgo : s.readchain.finished = false)
    (buf : Str) : s.decoded returned ++ (chain v).drain s.readchain (s.readinbuf ++ buf) =
      c.output (s.input ++ buf) := by
  cases h.gets with
  | coming _ e halike hfed =>
    rw [← halike.drain]
    exact c.independent _ _ _ _ (hfed.put buf)
  | ended hend =>
    rw [hend] at hgo
    exact Bool.noConfusion hgo

theorem Receives.continue_encode (h : Receives c returned s) :
    Alike (continue_encode v s.readchain s.readoutbuf).enc
        s.readchain ∧ (continue_encode v s.readchain s.readoutbuf).out = s.readoutbuf ∧
      Ran (continue_encode v s.readchain s.readoutbuf).enc := by
  refine continue_encode_spec (h.ran.imp_right fun hunused => ⟨hunused.1, ?_⟩)
  exact (append_eq_nil_iff.mp hunused.2).2

theorem Receives.pull_encode (h : Receives c returned s) :
    Receives c returned (WvEncoderStream.pull_encode v s) := by
  obtain ⟨halike', hout, hran⟩ := h.continue_encode
  have hreadoutbuf : (WvEncoderStream.pull_encode v s).readoutbuf = s.readoutbuf ++
      ((WvEncoderChain.chain v).encode
        (WvEncoderChain.continue_encode v s.readchain s.readoutbuf).enc s.readinbuf true).out :=
    congrArg (· ++ _) hout
  have hdecoded : (WvEncoderStream.pull_encode v s).decoded returned = s.decoded returned ++
      ((WvEncoderChain.chain v).encode
        (WvEncoderChain.continue_encode v s.readchain s.readoutbuf).enc s.readinbuf true).out := by
    rw [decoded, decoded, hreadoutbuf, ← append_assoc]
    rfl
  refine ⟨?_, .inl (hran.encode _ _), fun hclosed => ?_⟩
  · cases h.gets with
    | coming hgo e halike hfed =>
      obtain ⟨henc, hrest, hout'⟩ :=
        (halike.trans halike'.symm).encode (v := v) s.readinbuf true
      refine .coming ?_ _ henc ?_
      · exact (WvEncoderChain.encode_finished _ _ _).trans (halike'.2.1.trans hgo)
      · rw [hdecoded, ← hout']
        show (WvEncoderChain.chain v).Fed _ s.input _ ((WvEncoderChain.chain v).encode
          (WvEncoderChain.continue_encode v s.readchain s.readoutbuf).enc s.readinbuf true).rest _
        rw [← hrest]
        exact hfed.encode true
    | ended hend hall =>
      have hend' := halike'.2.1.trans hend
      have hlive := Virtual.not_live_of_finished hend'
      refine .ended ((WvEncoderChain.encode_finished _ _ _).trans hend') ?_
      rw [hdecoded, Virtual.encode_of_not_live hlive, append_nil]
      exact hall
  · obtain ⟨hend, hnone⟩ := h.closed hclosed
    have hend' := halike'.2.1.trans hend
    refine ⟨(WvEncoderChain.encode_finished _ _ _).trans hend', ?_⟩
    rw [hreadoutbuf, Virtual.encode_of_not_live (Virtual.not_live_of_finished hend'), hnone]
    rfl

theorem Receives.drain (h : Receives c returned s) {e : WvEncoderChain ω}
    (halike : Alike e s.readchain) (hran : Ran e ∨ e = s.readchain) (hdecoded : r.decoded returned =
      s.decoded returned ++ (chain v).drain e s.readinbuf)
    (hreadchain : r.readchain = ((chain v).finish
      ((chain v).encode e s.readinbuf true).enc).enc) (hinput : r.input = s.input)
    (hclosed : r.closed = true → r.readoutbuf = []) : Receives c returned r := by
  have hend : r.readchain.finished = true := by
    rw [hreadchain]
    rfl
  refine ⟨.ended hend ?_, ?_, fun hc => ⟨hend, hclosed hc⟩⟩
  · rw [hdecoded, hinput]
    cases h.gets with
    | coming hgo e' halike' hfed =>
      rw [← (halike'.trans halike.symm).drain]
      exact c.independent _ _ _ _ hfed
    | ended hend' hall =>
      have hlive := Virtual.not_live_of_finished (halike.2.1.trans hend')
      rw [Virtual.drain, Virtual.encode_of_not_live hlive]
      rw [Virtual.finish_of_not_live hlive, append_nil, append_nil]
      exact hall
  · rw [hreadchain, hdecoded]
    rcases drain_ran (v := v) e s.readinbuf with hafter | ⟨hset, hnone⟩
    · exact .inl hafter
    rw [hset, hnone, append_nil]
    rcases hran with hran | rfl
    · exact .inl hran
    · exact h.ran.imp id fun hunused => hunused

/-! ## `close` -/

/-- While `close` runs: the chain is finished, and then what it put out is in `inbuf`. -/
def Finished (c : Steady v) (returned : Str) (merged : Bool) (s : WvEncoderStream ω κ) : Prop :=
  Receives c returned s ∧ s.readchain.finished = true ∧ (merged = true → s.readoutbuf = []) ∧
    s.is_closing = true

theorem calm_finished (merged : Bool) : Calm W id (Finished (κ := κ) c returned merged) where
  closes _ hs := hs
  fails _ hs := ⟨hs.1.congr rfl rfl rfl rfl hs.1.closed, hs.2⟩
  cloned _ _ _ hs := ⟨hs.1.congr rfl rfl rfl rfl hs.1.closed, hs.2⟩
  flags _ _ _ _ _ _ hs := ⟨hs.1.congr rfl rfl rfl rfl hs.1.closed, hs.2⟩

theorem ignoresWriting_finished (merged : Bool) :
    IgnoresWriting (Finished (κ := κ) c returned merged) := fun _ _ _ _ _ _ hs =>
  ⟨hs.1.congr rfl rfl rfl rfl hs.1.closed, hs.2⟩

/-- What `finish_read` does to the read chain. -/
def drained (v : Virtual ω) (s : WvEncoderStream ω κ) : WvEncoderStream ω κ :=
  let r := (chain v).encode s.readchain s.readinbuf true
  let f := (chain v).finish r.enc
  { s with readchain := f.enc, readinbuf := r.rest, readoutbuf := s.readoutbuf ++ r.out ++ f.out }

def merge_readoutbuf (s : WvEncoderStream ω κ) : WvEncoderStream ω κ :=
  { s with inbuf := s.inbuf ++ s.readoutbuf, readoutbuf := [] }

theorem finish_read_fst (close : WvEncoderStream ω κ → WvEncoderStream ω κ) :
    (finish_read v W close s).1 = merge_readoutbuf (checkreadisok v W close (drained v s)) := rfl

theorem finished_drained (h : Receives c returned s) (hclosing : s.is_closing = true) :
    Finished c returned false (drained v s) := by
  refine ⟨h.drain (Alike.refl _) (.inr rfl) ?_ rfl rfl fun hclosed => ?_, rfl,
    Bool.noConfusion, hclosing⟩
  · simp only [drained, decoded, Virtual.drain, append_assoc]
  · obtain ⟨hend, hnone⟩ := h.closed hclosed
    have hlive := Virtual.not_live_of_finished hend
    simp only [drained, Virtual.encode_of_not_live hlive, Virtual.finish_of_not_live hlive, hnone,
      append_nil]

theorem finished_finish_read (h : Receives c returned s) (hclosing : s.is_closing = true) :
    Finished c returned true (finish_read v W id s).1 := by
  have hcheck := (calm_finished (W := W) false).checkreadisok (v := v)
    (finished_drained (v := v) h hclosing)
  rw [finish_read_fst]
  generalize checkreadisok v W id (drained v s) = r at hcheck ⊢
  obtain ⟨hreceives, hend, -, hclosing⟩ := hcheck
  refine ⟨hreceives.congr ?_ rfl rfl rfl fun _ => ⟨hend, rfl⟩, hend, fun _ => rfl, hclosing⟩
  simp only [merge_readoutbuf, decoded, append_assoc, append_nil]

/-- When no function of the stream runs, or one that was not called by `close`. -/
def Listens (W : Cloned κ) (c : Steady v) (returned : Str) (s : WvEncoderStream ω κ) : Prop :=
  Receives c returned s ∧ (s.readchain.finished = true → W.isok s.cloned = false) ∧
    s.is_closing = s.closed

variable (wait : WvEncoderStream ω κ → WvEncoderStream ω κ × Bool)

theorem Finished.listens (h : Finished c returned true s) :
    Listens W c returned { s with closed := true, cloned := W.close s.cloned } :=
  ⟨h.1.congr rfl rfl rfl rfl fun _ => ⟨h.2.1, h.2.2.1 rfl⟩,
    fun _ => W.isok_of_isclosed _ (W.isclosed_close _), h.2.2.2⟩

theorem close_of_closing (h : s.is_closing = true) : close v W wait s = s := by
  rw [close, if_pos h]

/-- `close` behind `finish_read`. -/
theorem close_ends {I : WvEncoderStream ω κ → Prop} (hcalm : Calm W id I) (hwrite : IgnoresWriting I)
    (hopen : s.is_closing = false) (h : I (finish_read v W id { s with is_closing := true }).1) :
    ∃ r, I r ∧ close v W wait s = { r with closed := true, cloned := W.close r.cloned } := by
  have hfinish := hcalm.push (v := v) hwrite true true h
  have hclose : close v W wait s = clone_close v W id wait
      (push v W id true true (finish_read v W id { s with is_closing := true }).1).1 := by
    rw [close, if_neg (ne_true_of_eq_false hopen)]
    rfl
  rw [hclose]
  generalize (push v W id true true _).1 = r at hfinish ⊢
  have hflags := hcalm.flags r r.stop_read r.stop_write r.want_to_flush r.is_flushing false hfinish
  exact ⟨_, (hcalm.stable hwrite fun _ => id).flush wait 2000 hflags, rfl⟩

theorem Listens.close (h : Listens W c returned s) (errnum : Bool) :
    Listens W c returned (close v W wait { s with errnum }) := by
  by_cases hclosing : s.is_closing = true
  · rw [close_of_closing (s := { s with errnum }) wait hclosing]
    exact ⟨h.1.congr rfl rfl rfl rfl h.1.closed, h.2⟩
  · have hstart : Receives c returned { s with errnum, is_closing := true } :=
      h.1.congr rfl rfl rfl rfl h.1.closed
    obtain ⟨r, hr, hclose⟩ := close_ends (s := { s with errnum }) wait (calm_finished true)
      (ignoresWriting_finished true) (eq_false_iff.mpr hclosing)
      (finished_finish_read (v := v) (W := W) hstart rfl)
    rw [hclose]
    exact hr.listens

open WvEncoderStream

theorem calm_listens : Calm W (close v W wait) (Listens W c returned) where
  closes s hs := hs.close wait s.errnum
  fails _ hs := hs.close wait true
  cloned _ _ hk hs :=
    ⟨hs.1.congr rfl rfl rfl rfl hs.1.closed, fun hend => hk.isok (hs.2.1 hend), hs.2.2⟩
  flags _ _ _ _ _ _ hs := ⟨hs.1.congr rfl rfl rfl rfl hs.1.closed, hs.2⟩

theorem ignoresWriting_listens : IgnoresWriting (Listens (ω := ω) W c returned) :=
  fun _ _ _ _ _ _ hs => ⟨hs.1.congr rfl rfl rfl rfl hs.1.closed, hs.2⟩

theorem calm_input (input : Str) : Calm W (close v W wait) fun s => s.input = input := by
  have hid : Calm (ω := ω) W id fun s => s.input = input :=
    ⟨fun _ hs => hs, fun _ hs => hs, fun _ _ _ hs => hs, fun _ _ _ _ _ _ hs => hs⟩
  have hcloses : ∀ s : WvEncoderStream ω κ, s.input = input → (close v W wait s).input = input := by
    intro s hs
    by_cases hclosing : s.is_closing = true
    · rwa [close_of_closing wait hclosing]
    · have hdrained : (drained v { s with is_closing := true }).input = input := hs
      obtain ⟨r, hr, hclose⟩ := close_ends (v := v) wait hid (fun _ _ _ _ _ _ hs => hs)
        (eq_false_iff.mpr hclosing) (hid.checkreadisok (v := v) hdrained)
      rw [hclose]
      exact hr
  exact ⟨hcloses, fun _ hs => hcloses _ hs, fun _ _ _ hs => hs, fun _ _ _ _ _ _ hs => hs⟩

/-! ## Pulling -/

/-- Bytes come only while the chain is not finished. The callback of the cloned stream does not
come before them, or it does not close the stream, or they add nothing to what is decoded. -/
def Arrives (v : Virtual ω) (W : Cloned κ) (s : WvEncoderStream ω κ) (size : Nat) : Prop :=
  (W.read s.cloned size).2 = [] ∨ s.readchain.finished = false ∧
    (W.isclosed (W.read s.cloned size).1 = false ∨ s.closecb = false ∨ s.outbuf ≠ [] ∨
      (WvEncoderChain.chain v).drain s.readchain (s.readinbuf ++ (W.read s.cloned size).2) =
        (WvEncoderChain.chain v).drain s.readchain s.readinbuf)

theorem maybe_autoclose_of_some {close : WvEncoderStream ω κ → WvEncoderStream ω κ}
    (h : s.outbuf ≠ [] ∨ s.inbuf ≠ []) : maybe_autoclose close s = s := by
  rw [maybe_autoclose, if_neg]
  rcases h with hout | hin
  · simp [hout]
  · simp [hin]

/-- The stream is not closed by the callback. -/
theorem called_of_some (close : WvEncoderStream ω κ → WvEncoderStream ω κ)
    (h : W.isclosed s.cloned = false ∨ s.closecb = false ∨ s.outbuf ≠ [] ∨ s.inbuf ≠ []) :
    ∃ stop_read stop_write closecb k, W.Later s.cloned k ∧
      called W close s = { s with stop_read, stop_write, closecb, cloned := k } := by
  rw [called]
  split
  · rename_i hcb
    have hsome : s.outbuf ≠ [] ∨ s.inbuf ≠ [] := by
      rw [and_eq_true] at hcb
      simpa [hcb.1, hcb.2] using h
    rw [close_callback, nowrite]
    split
    · refine ⟨true, true, false, W.noread (W.nowrite s.cloned),
        (W.later_nowrite _).trans (W.later_noread _), ?_⟩
      rw [maybe_autoclose_of_some (by exact hsome), noread]
      exact maybe_autoclose_of_some hsome
    · refine ⟨true, true, false, W.noread s.cloned, W.later_noread _, ?_⟩
      rw [maybe_autoclose_of_some (by exact hsome), noread]
      exact maybe_autoclose_of_some hsome
  · exact ⟨s.stop_read, s.stop_write, s.closecb, s.cloned, .refl _, rfl⟩

theorem Listens.put (h : Listens W c returned s) (buf : Str)
    (hadds : s.readchain.finished = true → c.output (s.input ++ buf) = c.output s.input) :
    Listens W c returned { s with readinbuf := s.readinbuf ++ buf, input := s.input ++ buf } := by
  refine ⟨⟨?_, h.1.ran, h.1.closed⟩, h.2⟩
  cases h.1.gets with
  | coming hgo e halike hfed => exact .coming hgo e halike (hfed.put _)
  | ended hend hdecoded => exact .ended hend (hdecoded.trans (hadds hend).symm)

theorem Listens.cloned_read (h : Listens W c returned s) (harrives : Arrives v W s size) :
    Listens W c returned (cloned_read W (WvEncoderStream.close v W wait) size s) := by
  have hlater : Listens W c returned { s with cloned := (W.read s.cloned size).1 } :=
    (calm_listens (v := v) wait).cloned s _ (W.later_read _ _) h
  have hinput : (called W (WvEncoderStream.close v W wait)
      { s with cloned := (W.read s.cloned size).1 }).input = s.input :=
    (calm_input (v := v) (W := W) wait s.input).called rfl
  refine ((calm_listens (v := v) wait).called hlater).put _ fun hend => ?_
  rw [hinput]
  rcases harrives with hnone | ⟨hgo, hor⟩
  · rw [hnone, append_nil]
  by_cases hsame : (chain v).drain s.readchain (s.readinbuf ++ (W.read s.cloned size).2) =
      (chain v).drain s.readchain s.readinbuf
  · rw [← h.1.decoded_drain hgo, hsame]
    simpa only [append_nil] using h.1.decoded_drain hgo []
  · obtain ⟨stop_read, stop_write, closecb, k, -, hcalled⟩ := called_of_some
      (W := W) (s := { s with cloned := (W.read s.cloned size).1 }) (WvEncoderStream.close v W wait)
      (hor.imp_right (.imp_right fun hout => .inl (hout.resolve_right hsame)))
    rw [hcalled] at hend
    exact absurd (hgo.symm.trans hend) false_ne_true

theorem Listens.pull_encode (h : Listens W c returned s) :
    Listens W c returned (WvEncoderStream.pull_encode v s) := by
  refine ⟨h.1.pull_encode, fun hend => h.2.1 ?_, h.2.2⟩
  rw [← h.1.continue_encode.1.2.1]
  exact (encode_finished _ s.readinbuf true).symm.trans hend

theorem Listens.pull_finish (h : Listens W c returned s) (hend : W.isok s.cloned = false) :
    Listens W c returned (WvEncoderStream.pull_finish v s) := by
  refine ⟨?_, fun _ => hend, h.2.2⟩
  obtain ⟨halike, hout, hran⟩ := h.1.continue_encode
  refine h.1.drain halike (.inl hran) ?_ rfl rfl fun hclosed => ?_
  · show returned ++ s.inbuf ++ (_ ++ _ ++ _) = _
    rw [hout]
    simp only [decoded, Virtual.drain, append_assoc, WvEncoderStream.pull_encode]
  · obtain ⟨hend', hnone⟩ := (h.1.pull_encode (v := v)).closed hclosed
    show (WvEncoderStream.pull_encode v s).readoutbuf ++ _ = []
    rw [hnone, Virtual.finish_of_not_live (Virtual.not_live_of_finished hend')]
    rfl

theorem Listens.pull (h : Listens W c returned s) (harrives : size = 0 ∨ Arrives v W s size) :
    Listens W c returned (pull v W (WvEncoderStream.close v W wait) size s) := by
  refine (calm_listens wait).pull_of ?_ (fun _ hr => hr.pull_encode) fun _ hr => hr.pull_finish
  split
  · exact h
  · rename_i hsize
    exact h.cloned_read wait (harrives.resolve_left hsize)

/-! ## Memory that is not used -/

/-- All that the input gives has been decoded, some new memory is behind it in `inbuf`, and without
that the stream satisfies `I`. -/
structure Beside (c : Steady v) (returned inbuf junk : Str) (queue_min : Nat)
    (I : WvEncoderStream ω κ → Prop) (s : WvEncoderStream ω κ) : Prop where
  all : returned ++ inbuf = c.output s.input
  without : I { s with inbuf }
  inbuf : s.inbuf = inbuf ++ junk
  queue_min : s.queue_min = queue_min

variable {inbuf junk : Str} {queue_min : Nat}

variable {I : WvEncoderStream ω κ → Prop}

theorem Beside.here (h : Beside c returned inbuf [] queue_min I s) : I s := by
  have hwithout := h.without
  rw [← append_nil inbuf, ← h.inbuf] at hwithout
  exact hwithout

theorem calm_beside (h : Calm W id I) :
    Calm W id (Beside c returned inbuf junk queue_min I) where
  closes _ hs := hs
  fails _ hs := { hs with without := h.fails _ hs.without }
  cloned s k hk hs := { hs with without := h.cloned { s with inbuf } k hk hs.without }
  flags s _ _ _ _ _ hs := { hs with without := h.flags { s with inbuf } _ _ _ _ _ hs.without }

theorem ignoresWriting_beside (h : IgnoresWriting I) :
    IgnoresWriting (Beside c returned inbuf junk queue_min I) := fun s _ _ _ _ _ hs =>
  { hs with without := h { s with inbuf } _ _ _ _ _ hs.without }

theorem Beside.close (h : Beside c returned inbuf junk queue_min (Listens W c returned) s)
    (errnum : Bool) : Beside c returned inbuf junk queue_min (Listens W c returned)
      (close v W wait { s with errnum }) := by
  by_cases hclosing : s.is_closing = true
  · rw [close_of_closing (s := { s with errnum }) wait hclosing]
    exact { h with without :=
      ⟨h.without.1.congr rfl rfl rfl rfl h.without.1.closed, h.without.2⟩ }
  · have hstart : Receives c returned { s with errnum, inbuf, is_closing := true } :=
      h.without.1.congr rfl rfl rfl rfl h.without.1.closed
    have hdrained : Beside c returned inbuf junk queue_min (Finished c returned false)
        (drained v { s with errnum, is_closing := true }) :=
      { h with without := finished_drained hstart rfl }
    have hread : Beside c returned inbuf junk queue_min (Finished c returned true)
        (finish_read v W id { s with errnum, is_closing := true }).1 := by
      have hcheck := (calm_beside (calm_finished (W := W) false)).checkreadisok (v := v) hdrained
      rw [finish_read_fst]
      generalize checkreadisok v W id (drained v { s with errnum, is_closing := true }) = r
        at hcheck ⊢
      have hnone : r.readoutbuf = [] := hcheck.without.1.readoutbuf_eq hcheck.all
      have hinbuf : r.inbuf ++ r.readoutbuf = r.inbuf := by rw [hnone, append_nil]
      obtain ⟨hreceives, hend, -, hclosing⟩ := hcheck.without
      refine { hcheck with inbuf := hinbuf.trans hcheck.inbuf, without := ?_ }
      refine ⟨hreceives.congr ?_ rfl rfl rfl fun _ => ⟨hend, rfl⟩, hend, fun _ => rfl, hclosing⟩
      simp only [merge_readoutbuf, decoded, hnone]
    obtain ⟨r, hr, hclose⟩ := close_ends (s := { s with errnum }) wait
      (calm_beside (calm_finished true)) (ignoresWriting_beside (ignoresWriting_finished true))
      (eq_false_iff.mpr hclosing) hread
    rw [hclose]
    exact { hr with without := hr.without.listens }

theorem calm_beside_listens : Calm W (close v W wait)
    (Beside c returned inbuf junk queue_min (Listens W c returned)) where
  closes s hs := hs.close wait s.errnum
  fails _ hs := hs.close wait true
  cloned s k hk hs :=
    { hs with without := (calm_listens (v := v) wait).cloned { s with inbuf } k hk hs.without }
  flags s _ _ _ _ _ hs :=
    { hs with without := (calm_listens (v := v) wait).flags { s with inbuf } _ _ _ _ _ hs.without }

theorem Beside.cloned_read (h : Beside c returned inbuf junk queue_min (Listens W c returned) s)
    (hnone : (W.read s.cloned size).2 = []) :
    Beside c returned inbuf junk queue_min (Listens W c returned)
      (cloned_read W (WvEncoderStream.close v W wait) size s) := by
  have hcalled := (calm_beside_listens (v := v) wait).call (W.later_read s.cloned size) h
  rw [WvEncoderStream.cloned_read, hnone]
  refine { hcalled with all := ?_, without := hcalled.without.put [] fun _ => by rw [append_nil] }
  exact hcalled.all.trans (congrArg _ (append_nil _).symm)

theorem Beside.uread (h : Beside c returned inbuf junk queue_min (Listens W c returned)
      (if size ≠ 0 && s.readoutbuf.isEmpty then
        if max s.min_readsize size = 0 then s
        else WvEncoderStream.cloned_read W (WvEncoderStream.close v W wait) (max s.min_readsize size) s
      else s)) :
    Beside c returned inbuf junk queue_min (Listens W c returned)
        (uread v W (WvEncoderStream.close v W wait) size s).1 ∧
      (uread v W (WvEncoderStream.close v W wait) size s).2 = [] := by
  have hpull : Beside c returned inbuf junk queue_min (Listens W c returned)
      (if size ≠ 0 && s.readoutbuf.isEmpty then
        pull v W (WvEncoderStream.close v W wait) (max s.min_readsize size) s else s) := by
    split
    · rename_i hread
      rw [if_pos hread] at h
      exact (calm_beside_listens wait).pull_of h
        (fun _ hr => { hr with without := hr.without.pull_encode })
        fun _ hr hend => { hr with without := hr.without.pull_finish hend }
    · rename_i hread
      rwa [if_neg hread] at h
  rw [WvEncoderStream.uread]
  generalize (if size ≠ 0 && s.readoutbuf.isEmpty then
    pull v W (WvEncoderStream.close v W wait) (max s.min_readsize size) s else s) = r at hpull ⊢
  have hnone : r.readoutbuf = [] := hpull.without.1.readoutbuf_eq hpull.all
  rw [hnone, drop_nil, take_nil]
  refine ⟨{ hpull with without := ?_ }, rfl⟩
  have hsame : ({ r with inbuf, readoutbuf := [] } : WvEncoderStream ω κ) = { r with inbuf } := by
    rw [← hnone]
  exact hsame ▸ hpull.without

theorem fill_buffer (old junk got : Str) :
    let inbuf := (old ++ junk).take old.length ++ got ++ (old ++ junk).drop (old.length + got.length)
    inbuf.take (inbuf.length - (junk.length - got.length)) = old ++ got := by
  intro inbuf
  have hinbuf : inbuf = old ++ got ++ junk.drop got.length := by
    simp only [inbuf, take_left', drop_append, Nat.add_sub_cancel_left,
      drop_eq_nil_of_le (Nat.le_add_right _ _), nil_append]
  rw [hinbuf]
  have hlength : (old ++ got ++ junk.drop got.length).length - (junk.length - got.length) =
      (old ++ got).length := by
    simp only [length_append, length_drop]
    omega
  rw [hlength, take_left']
  rfl

/-- The bytes that come when the cloned stream is read give nothing more, not even when they are
the last ones, and none come when the chain is finished. -/
def Dry (v : Virtual ω) (W : Cloned κ) (s : WvEncoderStream ω κ) (size : Nat) : Prop :=
  (s.readchain.finished = true → (W.read s.cloned size).2 = []) ∧
    (WvEncoderChain.chain v).drain s.readchain (s.readinbuf ++ (W.read s.cloned size).2) = []

theorem Listens.cloned_read_beside (h : Listens W c returned s) (hnone : s.readoutbuf = [])
    (hdry : Dry v W s size) (hjunk : junk ≠ []) :
    Beside c returned s.inbuf junk s.queue_min (Listens W c returned)
      (WvEncoderStream.cloned_read W (WvEncoderStream.close v W wait) size
        { s with inbuf := s.inbuf ++ junk }) := by
  have hdecoded : s.decoded returned = returned ++ s.inbuf := by
    rw [decoded, hnone, append_nil]
  have hall : returned ++ s.inbuf = c.output (s.input ++ (W.read s.cloned size).2) := by
    cases hfinished : s.readchain.finished with
    | true => rw [hdry.1 hfinished, append_nil, ← hdecoded, h.1.finished_of_ended hfinished]
    | false => rw [← h.1.decoded_drain hfinished, hdry.2, append_nil, hdecoded]
  obtain ⟨stop_read, stop_write, closecb, k, hk, hcalled⟩ := called_of_some (W := W)
    (s := { s with cloned := (W.read s.cloned size).1, inbuf := s.inbuf ++ junk })
    (WvEncoderStream.close v W wait)
    (.inr (.inr (.inr fun hnil => hjunk (append_eq_nil_iff.mp hnil).2)))
  have hread := (calm_listens (v := v) wait).cloned s k ((W.later_read _ size).trans hk) h
  have hflags := (calm_listens (v := v) wait).flags _ stop_read stop_write s.want_to_flush
    s.is_flushing closecb hread
  rw [WvEncoderStream.cloned_read, hcalled]
  exact ⟨hall, hflags.put _ fun hend => by rw [hdry.1 hend, append_nil], rfl, rfl⟩

theorem Listens.fill_dry (h : Listens W c returned s) (hfill : s.inbuf.length < s.queue_min)
    (hnone : s.readoutbuf = []) (hdry : Dry v W s (max s.min_readsize (s.queue_min - s.inbuf.length))) :
    Beside c returned s.inbuf [] s.queue_min (Listens W c returned)
      (fill v W (WvEncoderStream.close v W wait) s) := by
  have hcount : s.queue_min - s.inbuf.length ≠ 0 := by omega
  have hjunk : W.alloc (s.queue_min - s.inbuf.length) ≠ [] := fun hnil =>
    hcount ((W.length_alloc _).symm.trans (congrArg length hnil))
  obtain ⟨hread, hgot⟩ : Beside c returned s.inbuf (W.alloc (s.queue_min - s.inbuf.length))
        s.queue_min (Listens W c returned)
        (WvEncoderStream.uread v W (WvEncoderStream.close v W wait) (s.queue_min - s.inbuf.length)
          { s with inbuf := s.inbuf ++ W.alloc (s.queue_min - s.inbuf.length) }).1 ∧
      (WvEncoderStream.uread v W (WvEncoderStream.close v W wait) (s.queue_min - s.inbuf.length)
        { s with inbuf := s.inbuf ++ W.alloc (s.queue_min - s.inbuf.length) }).2 = [] := by
    refine Beside.uread wait ?_
    rw [if_pos (by simp [hnone, hcount]), if_neg (by omega)]
    exact h.cloned_read_beside wait hnone hdry hjunk
  have hbuffer := fill_buffer s.inbuf (W.alloc (s.queue_min - s.inbuf.length)) []
  rw [W.length_alloc] at hbuffer
  rw [fill]
  dsimp only
  rw [if_pos hfill, hgot]
  refine { hread with inbuf := ?_ }
  rw [hread.inbuf]
  exact hbuffer

/-! ## An open stream -/

/-- The cloned stream has not come to its end when it is read, and the chain is ok after that. -/
def StaysOpen (v : Virtual ω) (W : Cloned κ) (s : WvEncoderStream ω κ) (size : Nat) : Prop :=
  W.isok (W.read s.cloned size).1 = true ∧
    (WvEncoderChain.chain v).isok ((WvEncoderChain.chain v).encode s.readchain
      (s.readinbuf ++ (W.read s.cloned size).2) true).enc = true

theorem StaysOpen.going (hstays : StaysOpen v W s size) (h : Listens W c returned s) :
    s.readchain.finished = false := by
  refine eq_false_iff.mpr fun hend => ?_
  have hnot := (W.later_read s.cloned size).isok (h.2.1 hend)
  exact absurd (hnot.symm.trans hstays.1) false_ne_true

/-- What such a `read` of the cloned stream does. -/
def delivered (W : Cloned κ) (size : Nat) (s : WvEncoderStream ω κ) : WvEncoderStream ω κ :=
  { s with
    cloned := (W.read s.cloned size).1
    readinbuf := s.readinbuf ++ (W.read s.cloned size).2
    input := s.input ++ (W.read s.cloned size).2 }

theorem isopen_of_stays (h : StaysOpen v W s size) :
    W.isclosed (W.read s.cloned size).1 = false := by
  by_contra hclosed
  have hok := W.isok_of_isclosed _ (eq_true_of_not_eq_false hclosed)
  exact absurd (h.1.symm.trans hok) true_eq_false_eq_False

theorem cloned_read_of_stays (close : WvEncoderStream ω κ → WvEncoderStream ω κ)
    (h : StaysOpen v W s size) : cloned_read W close size s = delivered W size s := by
  have hcalled : called W close { s with cloned := (W.read s.cloned size).1 } =
      { s with cloned := (W.read s.cloned size).1 } := by
    rw [called, if_neg]
    simp [isopen_of_stays h]
  rw [cloned_read, hcalled]
  rfl

theorem pull_of_stays {close : WvEncoderStream ω κ → WvEncoderStream ω κ}
    (h : StaysOpen v W s size) (hreceives : Receives c returned s) (hsize : size ≠ 0)
    {inbuf : Str} (hinbuf : inbuf ≠ []) :
    pull v W close size { s with inbuf } =
      { pull_encode v (delivered W size s) with inbuf } := by
  have hread : cloned_read W close size { s with inbuf } =
      { delivered W size s with inbuf } := cloned_read_of_stays (v := v) (s := { s with inbuf }) close h
  have hok : W.isok (delivered W size s).cloned = true := h.1
  have hchain : (chain v).isok
      (pull_encode v (delivered W size s)).readchain = true := by
    have halike := hreceives.continue_encode.1
    refine (Alike.isok ?_).trans h.2
    exact (halike.encode _ true).1
  rw [pull, if_neg hsize, hread]
  rw [if_neg (by simp [hok]), if_neg, checkreadisok]
  · exact if_pos hchain
  · have hsome : inbuf.isEmpty = false := isEmpty_eq_false_iff.mpr hinbuf
    simp [pull_encode, hsome]

theorem Listens.fill (h : Listens W c returned s) (hfill : s.inbuf.length < s.queue_min)
    (hfills : s.readoutbuf ≠ [] ∨
      StaysOpen v W s (max s.min_readsize (s.queue_min - s.inbuf.length)) ∨
      Dry v W s (max s.min_readsize (s.queue_min - s.inbuf.length))) :
    Listens W c returned (fill v W (WvEncoderStream.close v W wait) s) ∧
      (fill v W (WvEncoderStream.close v W wait) s).queue_min = s.queue_min := by
  by_cases hdry : s.readoutbuf = [] ∧ Dry v W s (max s.min_readsize (s.queue_min - s.inbuf.length))
  · have hfilled := h.fill_dry wait hfill hdry.1 hdry.2
    exact ⟨hfilled.here, hfilled.queue_min⟩
  -- the stream as it would be if nothing were in between
  obtain ⟨m, hm, hinbuf, hmin, hpull⟩ : ∃ m, Listens W c returned m ∧ m.inbuf = s.inbuf ∧
      m.queue_min = s.queue_min ∧ (if s.queue_min - s.inbuf.length ≠ 0 && s.readoutbuf.isEmpty then
        WvEncoderStream.pull v W (WvEncoderStream.close v W wait)
          (max s.min_readsize (s.queue_min - s.inbuf.length))
          { s with inbuf := s.inbuf ++ W.alloc (s.queue_min - s.inbuf.length) }
      else { s with inbuf := s.inbuf ++ W.alloc (s.queue_min - s.inbuf.length) }) =
        { m with inbuf := s.inbuf ++ W.alloc (s.queue_min - s.inbuf.length) } := by
    by_cases hnone : s.readoutbuf = []
    · have hopen := (hfills.resolve_left fun hne => hne hnone).resolve_right fun hd => hdry ⟨hnone, hd⟩
      have hdelivered : Listens W c returned
          (delivered W (max s.min_readsize (s.queue_min - s.inbuf.length)) s) := by
        rw [← cloned_read_of_stays (WvEncoderStream.close v W wait) hopen]
        exact h.cloned_read wait (.inr ⟨hopen.going h, .inl (isopen_of_stays hopen)⟩)
      refine ⟨WvEncoderStream.pull_encode v _, hdelivered.pull_encode, rfl, rfl, ?_⟩
      · rw [if_pos (by simp [hnone]; omega)]
        refine pull_of_stays hopen h.1 (by omega) fun hnil => ?_
        have hlength := congrArg length hnil
        rw [length_append, W.length_alloc, length_nil] at hlength
        omega
    · refine ⟨s, h, rfl, rfl, if_neg ?_⟩
      simp [hnone]
  have hbuffer := fill_buffer s.inbuf (W.alloc (s.queue_min - s.inbuf.length))
    (m.readoutbuf.take (s.queue_min - s.inbuf.length))
  rw [W.length_alloc] at hbuffer
  have huread : uread v W (WvEncoderStream.close v W wait) (s.queue_min - s.inbuf.length)
      { s with inbuf := s.inbuf ++ W.alloc (s.queue_min - s.inbuf.length) } =
      ({ m with
          inbuf := s.inbuf ++ W.alloc (s.queue_min - s.inbuf.length)
          readoutbuf := m.readoutbuf.drop (s.queue_min - s.inbuf.length) },
        m.readoutbuf.take (s.queue_min - s.inbuf.length)) := by
    rw [uread]
    rw [hpull]
  rw [WvEncoderStream.fill]
  dsimp only
  rw [if_pos hfill, huread]
  rw [hbuffer]
  refine ⟨⟨hm.1.congr ?_ rfl rfl rfl fun hclosed => ?_, hm.2⟩, hmin⟩
  · simp only [decoded, hinbuf, append_assoc, take_append_drop]
  · obtain ⟨hend, hnone⟩ := hm.1.closed hclosed
    refine ⟨hend, ?_⟩
    show m.readoutbuf.drop _ = []
    rw [hnone, drop_nil]

theorem calm_inbuf : Calm W (close v W wait) fun s =>
    (s.is_closing = true → s.closed = true) ∧ (s.inbuf = [] ∨ s.closed = true) where
  closes s hs := by
    rw [close]
    split
    · exact hs
    · exact ⟨fun _ => rfl, .inr rfl⟩
  fails s hs := by
    rw [close]
    split
    · exact hs
    · exact ⟨fun _ => rfl, .inr rfl⟩
  cloned _ _ _ hs := hs
  flags _ _ _ _ _ _ hs := hs

theorem Listens.uread (h : Listens W c returned s) (hempty : s.inbuf = [])
    (harrives : size ≠ 0 → s.readoutbuf = [] → Arrives v W s (max s.min_readsize size)) :
    Listens W c (returned ++ (uread v W (WvEncoderStream.close v W wait) size s).2)
      (uread v W (WvEncoderStream.close v W wait) size s).1 := by
  have hpull : Listens W c returned (if size ≠ 0 && s.readoutbuf.isEmpty then
        WvEncoderStream.pull v W (WvEncoderStream.close v W wait) (max s.min_readsize size) s
        else s) ∧ ((if size ≠ 0 && s.readoutbuf.isEmpty then
        WvEncoderStream.pull v W (WvEncoderStream.close v W wait) (max s.min_readsize size) s
        else s).inbuf = [] ∨ (if size ≠ 0 && s.readoutbuf.isEmpty then
        WvEncoderStream.pull v W (WvEncoderStream.close v W wait) (max s.min_readsize size) s
        else s).closed = true) := by
    split
    · rename_i hread
      simp only [ne_eq, decide_not, and_eq_true, not_eq_true', decide_eq_false_iff_not,
        List.isEmpty_iff] at hread
      refine ⟨h.pull wait (.inr (harrives hread.1 hread.2)), ?_⟩
      exact ((calm_inbuf wait).pull (fun _ _ _ _ _ hs => hs) _ ⟨fun hc => h.2.2 ▸ hc, .inl hempty⟩).2
    · exact ⟨h, .inl hempty⟩
  rw [WvEncoderStream.uread]
  generalize (if size ≠ 0 && s.readoutbuf.isEmpty then
    WvEncoderStream.pull v W (WvEncoderStream.close v W wait) (max s.min_readsize size) s
    else s) = r at hpull ⊢
  obtain ⟨hlistens, hor⟩ := hpull
  refine ⟨hlistens.1.congr ?_ rfl rfl rfl fun hclosed => ?_, hlistens.2⟩
  · rcases hor with hnone | hclosed
    · simp only [decoded, hnone, List.append_nil, List.append_assoc, List.take_append_drop]
    · simp only [decoded, (hlistens.1.closed hclosed).2, List.take_nil, List.drop_nil,
        List.append_nil]
  · obtain ⟨hend, hnone⟩ := hlistens.1.closed hclosed
    refine ⟨hend, ?_⟩
    show r.readoutbuf.drop size = []
    rw [hnone, List.drop_nil]

/-! ## `read` -/

/-- Where `read` has to fill `inbuf` first, the end does not come while it does so, or nothing more
is decoded then; when the stream is closed, no bytes are too few to be returned. Where it reads
directly, the bytes come in front of the end. -/
def ReadsWell (v : Virtual ω) (W : Cloned κ) (s : WvEncoderStream ω κ) (count : Nat) : Prop :=
  if s.inbuf.length < s.queue_min then
    (s.closed = true → count ≠ 0 → s.inbuf = []) ∧ (s.readoutbuf ≠ [] ∨
      StaysOpen v W s (max s.min_readsize (s.queue_min - s.inbuf.length)) ∨
      Dry v W s (max s.min_readsize (s.queue_min - s.inbuf.length)))
  else s.inbuf = [] → s.readoutbuf = [] → count ≠ 0 → Arrives v W s (max s.min_readsize count)

theorem Listens.take (h : Listens W c returned s) (count : Nat) :
    Listens W c (returned ++ s.inbuf.take count) { s with inbuf := s.inbuf.drop count } := by
  refine ⟨h.1.congr ?_ rfl rfl rfl h.1.closed, h.2⟩
  rw [decoded, decoded, append_assoc _ (s.inbuf.take count), take_append_drop]

theorem Listens.read (h : Listens W c returned s) {count : Nat} (hwell : ReadsWell v W s count) :
    Listens W c (returned ++ (WvEncoderStream.read v W (WvEncoderStream.close v W wait) count s).2)
      (WvEncoderStream.read v W (WvEncoderStream.close v W wait) count s).1 := by
  -- after `fill`, there is enough in `inbuf`, or `uread` may be used
  obtain ⟨r, hr, hr', henough⟩ : ∃ r, WvEncoderStream.fill v W (WvEncoderStream.close v W wait) s = r ∧
      Listens W c returned r ∧ (r.queue_min ≤ r.inbuf.length → r.inbuf = [] → count ≠ 0 →
        r.readoutbuf = [] → Arrives v W r (max r.min_readsize count)) := by
    refine ⟨_, rfl, ?_⟩
    rw [ReadsWell] at hwell
    by_cases hfill : s.inbuf.length < s.queue_min
    · rw [if_pos hfill] at hwell
      obtain ⟨hfilled, hmin⟩ := h.fill wait hfill hwell.2
      refine ⟨hfilled, fun hle hnil => ?_⟩
      rw [hmin, hnil, length_nil] at hle
      omega
    · rw [if_neg hfill] at hwell
      rw [WvEncoderStream.fill]
      rw [if_neg hfill]
      exact ⟨h, fun _ hnil hcount hnone => hwell hnil hnone hcount⟩
  rw [WvEncoderStream.read, hr]
  split
  · rw [append_nil]
    exact (calm_listens wait).maybe_autoclose hr'
  split
  · rename_i hmin hzero
    have hnil := length_eq_zero_iff.mp hzero
    exact (calm_listens wait).maybe_autoclose
      (hr'.uread wait hnil (henough (Nat.le_of_not_lt hmin) hnil))
  · exact (calm_listens wait).maybe_autoclose (hr'.take _)

/-- What there is when `read` returns nothing at the end. -/
theorem Listens.read_closed (h : Listens W c returned s) (hclosed : s.closed = true) {count : Nat}
    (hwell : ReadsWell v W s count) (hcount : count ≠ 0)
    (hnothing : (WvEncoderStream.read v W (WvEncoderStream.close v W wait) count s).2 = []) :
    returned =
      c.output (WvEncoderStream.read v W (WvEncoderStream.close v W wait) count s).1.input := by
  obtain ⟨hend, hnone⟩ := h.1.closed hclosed
  have hbeside : Beside c returned s.inbuf [] s.queue_min (Listens W c returned) s := by
    refine ⟨?_, h, (append_nil _).symm, rfl⟩
    rw [← h.1.finished_of_ended hend, decoded, hnone, append_nil]
  have hdone : ∀ r, Beside c returned s.inbuf [] s.queue_min (Listens W c returned) r →
      s.inbuf = [] → returned = c.output (maybe_autoclose (WvEncoderStream.close v W wait) r).input :=
    fun r hr hnil => by
      rw [← ((calm_beside_listens wait).maybe_autoclose hr).all, hnil, append_nil]
  rw [ReadsWell] at hwell
  rw [WvEncoderStream.read] at hnothing ⊢
  by_cases hfew : s.inbuf.length < s.queue_min
  · rw [if_pos hfew] at hwell
    have hdry := (hwell.2.resolve_left fun hne => hne hnone).resolve_left fun hstays =>
      absurd ((hstays.going h).symm.trans hend) false_ne_true
    have hfilled := h.fill_dry wait hfew hnone hdry
    generalize WvEncoderStream.fill v W (WvEncoderStream.close v W wait) s = r at hfilled ⊢
    rw [hfilled.inbuf, hfilled.queue_min, append_nil, if_pos hfew]
    exact hdone r hfilled (hwell.1 hclosed hcount)
  · rw [if_neg hfew] at hwell
    have hfill : WvEncoderStream.fill v W (WvEncoderStream.close v W wait) s = s := by
      rw [WvEncoderStream.fill]
      exact if_neg hfew
    rw [hfill, if_neg hfew] at hnothing ⊢
    split at hnothing
    · rename_i hzero
      rw [if_pos hzero]
      have hnil := length_eq_zero_iff.mp hzero
      refine hdone _ (Beside.uread wait ?_).1 hnil
      rw [if_pos (by simp [hcount, hnone]), if_neg (by omega)]
      refine hbeside.cloned_read wait ((hwell hnil hnone hcount).resolve_right fun hgo => ?_)
      exact absurd (hgo.1.symm.trans hend) false_ne_true
    · have hlength := congrArg length hnothing
      rw [length_take, length_nil] at hlength
      omega

/-! ## Runs -/

theorem listens_start (writers : List (WvEncoder ω)) (k : κ) :
    Listens W c [] (Session.new c.encoders writers k).stream :=
  ⟨⟨.coming rfl _ (Alike.refl _) .start,
    .inr ⟨unused_new _, rfl⟩, Bool.noConfusion⟩, Bool.noConfusion, rfl⟩

def WellRead (v : Virtual ω) (W : Cloned κ) (t : Session ω κ) : Op → Prop
  | .read count => ReadsWell v W t.stream count
  | _ => True

theorem Listens.set (h : Listens W c returned s) (queue_min min_readsize max_outbuf_size : Nat)
    (outbuf_delayed_flush want_to_flush is_auto_flush : Bool) :
    Listens W c returned { s with
      queue_min, min_readsize, max_outbuf_size, outbuf_delayed_flush, want_to_flush,
      is_auto_flush } :=
  ⟨h.1.congr rfl rfl rfl rfl h.1.closed, h.2⟩

theorem listens_step {t : Session ω κ} (h : Listens W c t.returned t.stream) {op : Op}
    (hwell : WellRead v W t op) :
    Listens W c (t.step v W wait op).1.returned (t.step v W wait op).1.stream := by
  have hcalm : Calm W (WvEncoderStream.close v W wait) (Listens W c t.returned) := calm_listens wait
  have hstable := hcalm.stable (v := v) ignoresWriting_listens outbuf_close
  cases op with
  | write buf => exact hcalm.write ignoresWriting_listens outbuf_close wait buf h
  | flush msec_timeout => exact hstable.flush wait msec_timeout h
  | close => exact hcalm.closes _ h
  | read count => exact h.read wait hwell
  | select readable =>
    exact hstable.select wait (fun _ hs _ => hs.pull wait (.inl rfl)) readable h
  | noread => exact hcalm.noread (fun _ => hcalm.called) h
  | nowrite => exact hcalm.nowrite (fun _ => hcalm.called) h
  | queuemin count => exact h.set count _ _ _ _ _
  | min_readsize size => exact h.set _ size _ _ _ _
  | outbuf_limit size => exact h.set _ _ size _ _ _
  | delay_output is_delayed => exact h.set _ _ _ is_delayed _ _
  | auto_flush is_automatic => exact h.set _ _ _ _ _ is_automatic

/-- What was returned is a beginning of the decoded input, whatever may still come, and when the
stream is closed and `read` returns nothing, it is the whole of it. -/
def ReturnsInput (W : Cloned κ) (c : Steady v) (t : Session ω κ) (op : Op) (t' : Session ω κ)
    (buf : Str) : Prop :=
  (∀ more, (more = [] ∨ W.isok t'.stream.cloned = true) →
    t'.returned <+: c.output (t'.stream.input ++ more)) ∧
  ∀ count, op = .read count → count ≠ 0 → t.stream.closed = true → buf = [] →
    t'.returned = c.output t'.stream.input

variable (v W c)

def sessions : Lib.Machine (Session ω κ) Op Str where
  step t op := some (t.step v W wait op)

/-- In a run where every `read` is one that `ReadsWell`, what is returned is the decoded input. -/
theorem returns_input (writers : List (WvEncoder ω)) (k : κ) {ops : List Op}
    (hwell : (sessions v W wait).Along (WellRead v W) (Session.new c.encoders writers k) ops) :
    (sessions v W wait).Runs (ReturnsInput W c) (Session.new c.encoders writers k) ops := by
  have hstep : ∀ t op, Listens W c t.returned t.stream → WellRead v W t op →
      ∃ t' buf, (sessions v W wait).step t op = some (t', buf) ∧ ReturnsInput W c t op t' buf ∧
        Listens W c t'.returned t'.stream := by
    intro t op ht hop
    have ht' := listens_step wait ht hop
    refine ⟨_, _, rfl, ⟨fun more hmore => ht'.1.returned_begins ?_, ?_⟩, ht'⟩
    · refine hmore.imp_right fun hok => eq_false_iff.mpr fun hend => ?_
      exact absurd ((ht'.2.1 hend).symm.trans hok) false_ne_true
    rintro count rfl hcount hclosed hnone
    have hall := ht.read_closed wait hclosed hop hcount hnone
    show t.returned ++ _ = _
    rw [show (WvEncoderStream.read v W (WvEncoderStream.close v W wait) count t.stream).2 = [] from
      hnone, append_nil]
    exact hall
  exact Lib.Machine.runs_of_along hstep (listens_start writers k) hwell

end

/-! ## A stream that ends -/

/-- A stream that delivers some bytes, also when it has been closed. It is closed when it is read
and there is nothing left, or, if `atEnd`, together with the last bytes. -/
def source (atEnd : Bool) : Cloned (Str × Bool) where
  read k count :=
    ((k.1.drop count, k.2 || (k.1.drop count).isEmpty && (atEnd || k.1.isEmpty)), k.1.take count)
  write k buf := (k, if k.2 then 0 else buf.length)
  flush k _ := (k, true)
  noread k := k
  nowrite k := k
  close k := (k.1, true)
  pre_select k := k
  post_select k := k
  should_flush _ := false
  isok k := !k.2
  isclosed k := k.2
  geterr _ := false
  select k := (k, .well true false)
  read_le k count := List.length_take_le _ _
  write_le k buf := by
    split
    · exact Nat.zero_le _
    · exact Nat.le_refl _
  isok_of_isclosed k hk := by
    rw [hk]
    rfl
  isclosed_close _ := rfl
  write_closed k buf hk := if_pos hk
  later_read k count := by
    refine ⟨fun hend => ?_, fun hclosed => ?_, id⟩
    · rw [not_eq_false'] at hend ⊢
      exact or_eq_true_iff.mpr (.inl hend)
    · exact or_eq_true_iff.mpr (.inl hclosed)
  later_write _ _ := .refl _
  later_flush _ _ := .refl _
  later_noread _ := .refl _
  later_nowrite _ := .refl _
  later_close _ := ⟨fun _ => rfl, fun _ => rfl, id⟩
  later_pre_select _ := .refl _
  later_post_select _ := .refl _
  later_select _ := .refl _
  alloc count := List.replicate count 0
  length_alloc := length_zeros
  optgettable := List.length

/-- A run of `returns_input`, to the end. -/
theorem returns_all :
    (sessions WvPassthroughEncoder (source false) (fun s => (s, true))).Runs
      (ReturnsInput (source false) (Steady.empty WvPassthroughEncoder)) (Session.new [] [] ([97, 98], false))
      [.read 10, .read 10, .read 10] := by
  refine returns_input WvPassthroughEncoder (source false) (Steady.empty _) (fun s => (s, true)) []
    ([97, 98], false) ⟨fun _ _ _ => Or.inr ⟨rfl, Or.inl rfl⟩, fun t buf h => ?_⟩
  cases h
  refine ⟨fun _ _ _ => Or.inl rfl, fun t buf h => ?_⟩
  cases h
  exact ⟨fun _ _ _ => Or.inl rfl, fun _ _ _ => trivial⟩

/-- The end comes while `read` fills `inbuf`: a byte of new memory is returned in front of what
was decoded, and the last byte is not returned. The end comes together with the only byte: it is
not returned. The cloned stream is closed, but still has two bytes: they are not returned. -/
theorem loses_input :
    let t := (Session.new (ω := Nat) [] [] ([97, 98], false)).run WvPassthroughEncoder (source true)
      (fun s => (s, true)) [.queuemin 1, .min_readsize 2, .read 10, .read 10, .read 10]
    let t' := (Session.new (ω := Nat) [] [] ([97], false)).run WvPassthroughEncoder (source true)
      (fun s => (s, true)) [.read 10, .read 10]
    let t'' := (Session.new (ω := Nat) [] [] ([97, 98], true)).run WvPassthroughEncoder
      (source false) (fun s => (s, true)) [.read 1, .read 1]
    t.stream.closed = true ∧ t.stream.input = [97, 98] ∧ t.returned = [0, 97] ∧
      t'.stream.closed = true ∧ t'.stream.input = [97] ∧ t'.returned = [] ∧
      t''.stream.closed = true ∧ t''.stream.input = [97, 98] ∧ t''.returned = [] ∧
      ∀ data, (Steady.empty WvPassthroughEncoder).output data = data := by
  refine ⟨rfl, rfl, rfl, rfl, rfl, rfl, rfl, rfl, rfl, fun data => ?_⟩
  exact drain_nil data

end WvEncoderStream

end WvStreams
