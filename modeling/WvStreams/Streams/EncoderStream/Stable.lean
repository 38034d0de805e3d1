import WvStreams.Streams.EncoderStream.Basic

/-!
# What the functions of a `WvEncoderStream` keep

`Calm` predicates do not change when the cloned stream is called, whatever its close callback
does. `Stable` ones are also kept by the functions that write. Each is about one `close`.
-/

namespace WvStreams

open WvEncoder (Virtual)

theorem IWvStream.Later.refl {κ : Type} {W : IWvStream κ} (k : κ) : W.Later k k := ⟨id, id, id⟩

theorem IWvStream.Later.trans {κ : Type} {W : IWvStream κ} {k l m : κ} (h : W.Later k l)
    (h' : W.Later l m) : W.Later k m :=
  ⟨h'.isok ∘ h.isok, h'.isclosed ∘ h.isclosed, h'.geterr ∘ h.geterr⟩

namespace WvEncoderStream

variable {ω κ : Type} {v : Virtual ω} {W : Cloned κ}

/-- What is kept by `close`, also where it is because of an error, by every call of the cloned
stream, and when the flags are set that say what was asked for. -/
structure Calm (W : Cloned κ) (close : WvEncoderStream ω κ → WvEncoderStream ω κ)
    (I : WvEncoderStream ω κ → Prop) : Prop where
  closes : ∀ s, I s → I (close s)
  fails : ∀ s, I s → I (close { s with errnum := true })
  cloned : ∀ s k, W.Later s.cloned k → I s → I { s with cloned := k }
  flags : ∀ (s : WvEncoderStream ω κ) (stop_read stop_write want_to_flush is_flushing closecb : Bool),
    I s → I { s with stop_read, stop_write, want_to_flush, is_flushing, closecb }

namespace Calm

variable {close : WvEncoderStream ω κ → WvEncoderStream ω κ} {I : WvEncoderStream ω κ → Prop}
  {s : WvEncoderStream ω κ}

theorem maybe_autoclose (h : Calm W close I) (hs : I s) : I (maybe_autoclose close s) := by
  rw [WvEncoderStream.maybe_autoclose]
  split
  · exact h.closes s hs
  · exact hs

theorem noread (h : Calm W close I) {called : WvEncoderStream ω κ → WvEncoderStream ω κ}
    (hcalled : ∀ s, I s → I (called s)) (hs : I s) : I (noread W close called s) :=
  h.maybe_autoclose (h.flags _ true _ _ _ _ (hcalled _ (h.cloned s _ (W.later_noread _) hs)))

theorem nowrite (h : Calm W close I) {called : WvEncoderStream ω κ → WvEncoderStream ω κ}
    (hcalled : ∀ s, I s → I (called s)) (hs : I s) : I (nowrite W close called s) := by
  rw [WvEncoderStream.nowrite]
  refine h.maybe_autoclose (h.flags _ _ true _ _ _ ?_)
  split
  · exact hcalled _ (h.cloned s _ (W.later_nowrite _) hs)
  · exact hs

theorem called (h : Calm W close I) (hs : I s) : I (called W close s) := by
  rw [WvEncoderStream.called]
  split
  · exact h.noread (fun _ => id) (h.nowrite (fun _ => id) (h.flags s _ _ _ _ false hs))
  · exact hs

theorem call (h : Calm W close I) {k : κ} (hk : W.Later s.cloned k) (hs : I s) :
    I (WvEncoderStream.called W close { s with cloned := k }) := h.called (h.cloned s k hk hs)

theorem seterr (h : Calm W close I) (hs : I s) : I (seterr W close s) := by
  rw [WvEncoderStream.seterr]
  split
  · exact hs
  · exact h.fails s hs

theorem checkreadisok (h : Calm W close I) (hs : I s) : I (checkreadisok v W close s) := by
  rw [WvEncoderStream.checkreadisok]
  split
  · exact hs
  · exact h.noread (fun _ => h.called) (h.seterr hs)

theorem checkwriteisok (h : Calm W close I) (hs : I s) : I (checkwriteisok v W close s) := by
  rw [WvEncoderStream.checkwriteisok]
  split
  · exact hs
  · exact h.seterr hs

theorem clone_flush (h : Calm W close I) (hs : I s) (msec_timeout : Int) :
    I (clone_flush W close msec_timeout s).1 := by
  rw [WvEncoderStream.clone_flush]
  refine h.call (W.later_flush _ _) ?_
  split
  · exact h.call (W.later_nowrite _) hs
  · exact hs

theorem pre_select (h : Calm W close I) (hs : I s) : I (pre_select W close s) := by
  rw [WvEncoderStream.pre_select]
  split
  · exact h.call (W.later_pre_select _) (h.maybe_autoclose hs)
  · exact h.maybe_autoclose hs

end Calm

/-- What is kept also by the functions that write. -/
structure Stable (v : Virtual ω) (W : Cloned κ)
    (close : WvEncoderStream ω κ → WvEncoderStream ω κ) (I : WvEncoderStream ω κ → Prop) : Prop
    extends Calm W close I where
  push : ∀ flush s, I s → I (push v W close flush false s).1
  attempt : ∀ s, I s → I (attempt v W close s)
  zap : ∀ s, I s → s.isok W = false → I { s with outbuf := [] }
  empty : ∀ s : WvEncoderStream ω κ, s.outbuf = [] → (close s).outbuf = []

theorem calm_outbuf {close : WvEncoderStream ω κ → WvEncoderStream ω κ}
    (h : ∀ s : WvEncoderStream ω κ, s.outbuf = [] → (close s).outbuf = []) :
    Calm W close fun s => s.outbuf = [] where
  closes := h
  fails _ hs := h _ hs
  cloned _ _ _ hs := hs
  flags _ _ _ _ _ _ hs := hs

theorem outbuf_push {close : WvEncoderStream ω κ → WvEncoderStream ω κ}
    (h : ∀ s : WvEncoderStream ω κ, s.outbuf = [] → (close s).outbuf = [])
    {s : WvEncoderStream ω κ} {flush : Bool} (hs : flush = true ∨ s.outbuf = []) (finish : Bool) :
    (push v W close flush finish s).1.outbuf = [] := by
  have hmerge : (if flush then merge_outbuf s else s).outbuf = [] := by
    split
    · rfl
    · rename_i hflush
      exact hs.resolve_left hflush
  have hcalm : Calm W close fun s => s.outbuf = [] := calm_outbuf h
  rw [push, cloned_write]
  exact hcalm.called (hcalm.checkwriteisok (v := v) hmerge)

theorem outbuf_flush_internal {close : WvEncoderStream ω κ → WvEncoderStream ω κ}
    (h : ∀ s : WvEncoderStream ω κ, s.outbuf = [] → (close s).outbuf = []) (msec_timeout : Int)
    (s : WvEncoderStream ω κ) : (flush_internal v W close msec_timeout s).1.outbuf = [] :=
  (calm_outbuf h).clone_flush (outbuf_push h (Or.inl rfl) false) msec_timeout

namespace Stable

variable {close : WvEncoderStream ω κ → WvEncoderStream ω κ} {I : WvEncoderStream ω κ → Prop}
  (wait : WvEncoderStream ω κ → WvEncoderStream ω κ × Bool) {s : WvEncoderStream ω κ}

theorem flush_outbuf (h : Stable v W close I) {msec_timeout : Int}
    (hwait : msec_timeout = 0 ∨ s.outbuf = []) (hs : I s) :
    I (flush_outbuf v W close wait msec_timeout s).1 := by
  rw [WvEncoderStream.flush_outbuf]
  split
  · exact h.maybe_autoclose hs
  -- the loop
  have hloop : I (if !s.outbuf.isEmpty && s.isok W then
      if msec_timeout = 0 then (WvEncoderStream.attempt v W close s, true)
      else wait (WvEncoderStream.attempt v W close s)
    else (s, !s.outbuf.isEmpty)).1 := by
    split
    · rename_i hused
      have htimeout : msec_timeout = 0 := by
        rcases hwait with hzero | hempty
        · exact hzero
        · rw [hempty] at hused
          exact absurd hused Bool.false_ne_true
      rw [if_pos htimeout]
      exact h.attempt s hs
    · exact hs
  generalize (if !s.outbuf.isEmpty && s.isok W then
      if msec_timeout = 0 then (WvEncoderStream.attempt v W close s, true)
      else wait (WvEncoderStream.attempt v W close s)
    else (s, !s.outbuf.isEmpty)) = a at hloop ⊢
  obtain ⟨r, outbuf_was_used⟩ := a
  dsimp only at hloop ⊢
  have hflag : I (if r.outbuf_delayed_flush && !outbuf_was_used then
      { r with want_to_flush := false } else r) := by
    split
    · exact h.flags r _ _ false _ _ hloop
    · exact hloop
  generalize (if r.outbuf_delayed_flush && !outbuf_was_used then
    { r with want_to_flush := false } else r) = r' at hflag ⊢
  refine h.maybe_autoclose ?_
  split
  · rename_i hzap
    rw [Bool.and_eq_true, Bool.not_eq_true'] at hzap
    exact h.zap r' hflag hzap.2
  · exact hflag

theorem flush (h : Stable v W close I) (msec_timeout : Int) (hs : I s) :
    I (flush v W close wait msec_timeout s).1 := by
  rw [WvEncoderStream.flush]
  split
  · exact hs
  have hinternal : I (flush_internal v W close msec_timeout
      { s with is_flushing := true, want_to_flush := true }).1 :=
    h.clone_flush (h.push true _ (h.flags s _ _ true true _ hs)) msec_timeout
  have hempty : (flush_internal v W close msec_timeout
      { s with is_flushing := true, want_to_flush := true }).1.outbuf = [] :=
    outbuf_flush_internal h.empty msec_timeout _
  generalize flush_internal v W close msec_timeout
    { s with is_flushing := true, want_to_flush := true } = a at hinternal hempty ⊢
  obtain ⟨r, done⟩ := a
  refine h.flags _ _ _ _ false _ ?_
  split
  · exact h.flush_outbuf wait (Or.inr hempty) hinternal
  · exact hinternal

theorem flush_if (h : Stable v W close I) (c : Prop) [Decidable c] (hs : I s) :
    I (if c then (WvEncoderStream.flush v W close wait 0 s).1 else s) := by
  split
  · exact h.flush wait 0 hs
  · exact hs

theorem clone_post_select (h : Stable v W close I) (hs : I s) :
    I (clone_post_select v W close wait s) := by
  rw [WvEncoderStream.clone_post_select]
  have hfirst : I (if s.want_to_flush then (WvEncoderStream.flush v W close wait 0 s).1 else s) :=
    h.flush_if wait _ hs
  generalize (if s.want_to_flush then (WvEncoderStream.flush v W close wait 0 s).1 else s) = r
    at hfirst ⊢
  have hsecond : I (if W.should_flush r.cloned then
      (WvEncoderStream.flush v W close wait 0 r).1 else r) := h.flush_if wait _ hfirst
  generalize (if W.should_flush r.cloned then
    (WvEncoderStream.flush v W close wait 0 r).1 else r) = r' at hsecond ⊢
  split
  · exact h.call (W.later_post_select _) hsecond
  · exact hsecond

theorem select (h : Stable v W close I) (hpull : ∀ s, I s → s.readoutbuf ≠ [] →
    I (pull v W close 0 s)) (readable : Bool) (hs : I s) :
    I (select v W close wait readable s) := by
  rw [WvEncoderStream.select]
  have hselect := h.call (W.later_select _) (h.pre_select hs)
  split
  · exact h.seterr hselect
  · exact hselect
  · rw [WvEncoderStream.post_select]
    refine h.clone_post_select wait (h.push false _ ?_)
    split
    · rename_i hread
      rw [Bool.and_eq_true, Bool.not_eq_true', List.isEmpty_eq_false_iff] at hread
      exact hpull _ hselect hread.2
    · exact hselect

theorem flush_write (h : Stable v W close I) (hs : I s) :
    I (if s.want_to_flush then
        if s.is_auto_flush then (WvEncoderStream.flush v W close wait 0 s).1
        else (WvEncoderStream.flush_outbuf v W close wait 0 s).1
      else s) := by
  split
  · split
    · exact h.flush wait 0 hs
    · exact h.flush_outbuf wait (Or.inl rfl) hs
  · exact hs

end Stable

/-- What `pull` does to the read chain when nothing comes any more. -/
def pull_finish (v : Virtual ω) (s : WvEncoderStream ω κ) : WvEncoderStream ω κ :=
  let r := pull_encode v s
  { r with
    readchain := ((WvEncoderChain.chain v).finish r.readchain).enc
    readoutbuf := r.readoutbuf ++ ((WvEncoderChain.chain v).finish r.readchain).out }

/-- It is not about what `pull` changes itself. -/
def IgnoresPulling (I : WvEncoderStream ω κ → Prop) : Prop :=
  ∀ (s : WvEncoderStream ω κ) (readchain : WvEncoderChain ω) (readinbuf readoutbuf input : Str),
    I s → I { s with readchain, readinbuf, readoutbuf, input }

/-- It is not about the fields for reading. -/
def IgnoresReading (I : WvEncoderStream ω κ → Prop) : Prop :=
  ∀ (s : WvEncoderStream ω κ) (readchain : WvEncoderChain ω)
    (inbuf readinbuf readoutbuf input : Str), I s →
    I { s with readchain, inbuf, readinbuf, readoutbuf, input }

theorem IgnoresReading.pulling {I : WvEncoderStream ω κ → Prop} (h : IgnoresReading I) :
    IgnoresPulling I := fun s readchain readinbuf readoutbuf input =>
  h s readchain s.inbuf readinbuf readoutbuf input

/-- It is not about the fields for writing. -/
def IgnoresWriting (I : WvEncoderStream ω κ → Prop) : Prop :=
  ∀ (s : WvEncoderStream ω κ) (writechain : WvEncoderChain ω) (outbuf writeinbuf encoded : Str)
    (offers : List Offer), I s → I { s with writechain, outbuf, writeinbuf, encoded, offers }

section

variable {close : WvEncoderStream ω κ → WvEncoderStream ω κ} {I : WvEncoderStream ω κ → Prop}
  {s : WvEncoderStream ω κ}

namespace Calm

theorem finish_read (h : Calm W close I) (hread : IgnoresReading I) (hs : I s) :
    I (finish_read v W close s).1 :=
  hread _ _ _ _ _ _ (h.checkreadisok (hread _ _ _ _ _ _ hs))

theorem pull_of (h : Calm W close I) {size : Nat}
    (hread : I (if size = 0 then s else cloned_read W close size s))
    (hencode : ∀ r, I r → I (pull_encode v r))
    (hfinish : ∀ r, I r → W.isok r.cloned = false → I (pull_finish v r)) :
    I (WvEncoderStream.pull v W close size s) := by
  rw [WvEncoderStream.pull]
  generalize (if size = 0 then s else cloned_read W close size s) = r at hread ⊢
  refine h.checkreadisok ?_
  split
  · rename_i hend
    rw [Bool.not_eq_true'] at hend
    exact h.closes _ (hfinish r hread hend)
  split
  · exact h.closes _ (hencode r hread)
  · exact hencode r hread

theorem pull (h : Calm W close I) (hpull : IgnoresPulling I) (size : Nat) (hs : I s) :
    I (pull v W close size s) := by
  have hencode : ∀ r, I r → I (pull_encode v r) := fun r hr => hpull r _ _ _ _ hr
  refine h.pull_of ?_ hencode fun r hr _ => hpull _ _ _ _ _ (hencode r hr)
  split
  · exact hs
  · exact hpull _ _ _ _ _ (h.call (W.later_read _ _) hs)

theorem uread (h : Calm W close I) (hread : IgnoresReading I) (size : Nat) (hs : I s) :
    I (uread v W close size s).1 := by
  rw [WvEncoderStream.uread]
  refine hread _ _ _ _ _ _ ?_
  split
  · exact h.pull hread.pulling _ hs
  · exact hs

theorem fill (h : Calm W close I) (hread : IgnoresReading I) (hs : I s) : I (fill v W close s) := by
  rw [WvEncoderStream.fill]
  split
  · exact hread _ _ _ _ _ _ (h.uread hread _ (hread _ _ _ _ _ _ hs))
  · exact hs

theorem read (h : Calm W close I) (hread : IgnoresReading I) (count : Nat) (hs : I s) :
    I (read v W close count s).1 := by
  have hfill : I (WvEncoderStream.fill v W close s) := h.fill hread hs
  rw [WvEncoderStream.read]
  split
  · exact h.maybe_autoclose hfill
  split
  · exact h.maybe_autoclose (h.uread hread count hfill)
  · exact h.maybe_autoclose (hread _ _ _ _ _ _ hfill)

theorem push (h : Calm W close I) (hwrite : IgnoresWriting I) (flush finish : Bool) (hs : I s) :
    I (push v W close flush finish s).1 := by
  have hmerge : I (if flush then merge_outbuf s else s) := by
    split
    · exact hwrite s _ _ _ _ _ hs
    · exact hs
  have hencode : I (push_encode v flush finish (if flush then merge_outbuf s else s)).1 :=
    hwrite _ _ _ _ _ _ hmerge
  have hcheck := h.checkwriteisok (v := v) hencode
  rw [WvEncoderStream.push, cloned_write]
  generalize WvEncoderStream.checkwriteisok v W close
    (push_encode v flush finish (if flush then merge_outbuf s else s)).1 = r at hcheck ⊢
  exact h.called (hwrite _ r.writechain r.outbuf r.writeinbuf r.encoded _
    (h.cloned r _ (W.later_write _ _) hcheck))

theorem stable (h : Calm W close I) (hwrite : IgnoresWriting I)
    (hempty : ∀ s : WvEncoderStream ω κ, s.outbuf = [] → (close s).outbuf = []) :
    Stable v W close I where
  toCalm := h
  push flush _ hs := h.push hwrite flush false hs
  attempt s hs := h.push hwrite false false (hwrite s _ _ _ _ _ hs)
  zap s hs _ := hwrite s _ _ _ _ _ hs
  empty := hempty

theorem write (h : Calm W close I) (hwrite : IgnoresWriting I)
    (hempty : ∀ s : WvEncoderStream ω κ, s.outbuf = [] → (close s).outbuf = [])
    (wait : WvEncoderStream ω κ → WvEncoderStream ω κ × Bool) (buf : Str) (hs : I s) :
    I (write v W close wait buf s).1 := by
  rw [WvEncoderStream.write]
  split
  · exact hs
  have hbypass : I (if !s.outbuf_delayed_flush && s.outbuf.isEmpty then
      uwrite v W close buf s else (s, 0)).1 := by
    split
    · exact h.push hwrite false false (hwrite s _ _ _ _ _ hs)
    · exact hs
  generalize (if !s.outbuf_delayed_flush && s.outbuf.isEmpty then
    uwrite v W close buf s else (s, 0)) = a at hbypass ⊢
  have hbuffered := hwrite a.1 a.1.writechain
    (a.1.outbuf ++ (buf.drop a.2).take (buffered (buf.length - a.2) a.1)) a.1.writeinbuf
    a.1.encoded a.1.offers hbypass
  have hflush := (h.stable (v := v) hwrite hempty).flush_write wait hbuffered
  exact hflush

end Calm

theorem stable_outbuf (h : ∀ s : WvEncoderStream ω κ, s.outbuf = [] → (close s).outbuf = []) :
    Stable v W close fun s => s.outbuf = [] where
  toCalm := calm_outbuf h
  push _ _ hs := outbuf_push h (Or.inr hs) false
  attempt s hs := by
    have hdrop : s.outbuf.drop (min (W.optgettable s.outbuf) s.outbuf.length) = [] := by
      rw [hs, List.drop_nil]
    exact outbuf_push h (Or.inr hdrop) false
  zap _ _ _ := rfl
  empty := h

end

theorem outbuf_close {wait : WvEncoderStream ω κ → WvEncoderStream ω κ × Bool}
    (s : WvEncoderStream ω κ) (hs : s.outbuf = []) : (close v W wait s).outbuf = [] := by
  rw [close]
  split
  · exact hs
  have hid : ∀ s : WvEncoderStream ω κ, s.outbuf = [] → (id s).outbuf = [] := fun _ => id
  exact (stable_outbuf hid).flush wait 2000 (outbuf_push hid (Or.inl rfl) true)

end WvEncoderStream

end WvStreams
