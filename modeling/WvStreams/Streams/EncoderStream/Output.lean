import WvStreams.Streams.EncoderStream.Stable

/-!
# Writing to a `WvEncoderStream`

What `push` encodes is in a buffer of its own, so that what the cloned stream does not accept is
lost. Where it accepts everything, it receives what the write chain puts out, and in this order,
although `close` may be called while there is still something to be written: the stream is closed
then, and accepts nothing of it.
-/

namespace WvStreams

open List

open WvEncoderChain

open WvEncoder (Virtual)

/-- Encoders whose chain puts out the same however the data come. -/
structure Steady {ω : Type} (v : Virtual ω) where
  encoders : List (WvEncoder ω)
  independent : (WvEncoderChain.chain v).Independent (WvEncoderChain.new encoders)

def Steady.output {ω : Type} {v : Virtual ω} (c : Steady v) (data : Str) : Str :=
  (WvEncoderChain.chain v).drain (WvEncoderChain.new c.encoders) data

namespace WvEncoderStream

variable {ω κ : Type} {v : Virtual ω} {W : Cloned κ}

/-- The cloned stream has accepted all that it was offered. -/
def AllTaken (s : WvEncoderStream ω κ) : Prop := ∀ o ∈ s.offers, o.Taken

def offered (s : WvEncoderStream ω κ) : Str := s.offers.flatMap Offer.buf

def accepted (s : WvEncoderStream ω κ) : Str := s.offers.flatMap fun o => o.buf.take o.len

/-- Where data are that were written. -/
inductive Holds (c : Steady v) (data : Str) (s : WvEncoderStream ω κ) : Prop where
  | coming (fed : Str) (hgo : s.writechain.finished = false)
      (hfed : (WvEncoderChain.chain v).Fed (WvEncoderChain.new c.encoders) fed s.writechain
        s.writeinbuf s.encoded)
      (hdata : data = fed ++ s.outbuf)
  | ended (hend : s.writechain.finished = true) (hout : s.outbuf = [])
      (hencoded : s.encoded = c.output data)

/-- The state of the writing half, while some bytes that were encoded are still to be offered. The
output buffer is emptied if the cloned stream has an error; but where the output is never delayed,
as `direct` tells, there is nothing in it. -/
structure Sends (W : Cloned κ) (c : Steady v) (direct : Bool) (data : Str) (pending : Nat)
    (s : WvEncoderStream ω κ) : Prop where
  holds : ∃ kept lost, data = kept ++ lost ∧
    (lost ≠ [] → W.geterr s.cloned = true ∧ direct = false) ∧ Holds c kept s
  books : s.offered.length + pending = s.encoded.length
  bounded : ∀ o ∈ s.offers, o.len ≤ o.buf.length
  exact : pending = 0 → s.AllTaken → s.offered = s.encoded
  direct : direct = true → s.outbuf = [] ∧ s.outbuf_delayed_flush = false
  finished : s.writechain.finished = true → s.is_closing = true
  errnum : s.errnum = true → s.is_closing = true
  closed : s.closed = true → s.writechain.finished = true

/-! ## The write chain -/

section

variable {c : Steady v} {data : Str} {s : WvEncoderStream ω κ}

theorem Holds.move (h : Holds c data s) (count : Nat) : Holds c data { s with
    writeinbuf := s.writeinbuf ++ s.outbuf.take count, outbuf := s.outbuf.drop count } := by
  cases h with
  | coming fed hgo hfed hdata =>
    refine .coming (fed ++ s.outbuf.take count) hgo (hfed.put _) ?_
    rw [hdata, append_assoc, take_append_drop]
  | ended hend hout hencoded =>
    refine .ended hend ?_ hencoded
    show s.outbuf.drop count = []
    rw [hout, drop_nil]

theorem Holds.encode (h : Holds c data s) (flush : Bool) : Holds c data { s with
    writechain := ((chain v).encode s.writechain s.writeinbuf flush).enc
    writeinbuf := ((chain v).encode s.writechain s.writeinbuf flush).rest
    encoded := s.encoded ++ ((chain v).encode s.writechain s.writeinbuf flush).out } := by
  cases h with
  | coming fed hgo hfed hdata =>
    refine .coming fed ?_ (hfed.encode flush) hdata
    rw [encode_finished, hgo]
  | ended hend hout hencoded =>
    rw [Virtual.encode_of_not_live (Virtual.not_live_of_finished hend)]
    refine .ended hend hout ?_
    rw [append_nil]
    exact hencoded

theorem Holds.finish (h : Holds c data s) (hout : s.outbuf = []) : Holds c data { s with
    writechain := ((chain v).finish
      ((chain v).encode s.writechain s.writeinbuf true).enc).enc
    writeinbuf := ((chain v).encode s.writechain s.writeinbuf true).rest
    encoded := s.encoded ++ (chain v).drain s.writechain s.writeinbuf } := by
  cases h with
  | coming fed hgo hfed hdata =>
    refine .ended rfl hout ?_
    rw [hdata, hout, append_nil]
    exact c.independent _ _ _ _ hfed
  | ended hend _ hencoded =>
    have hlive := Virtual.not_live_of_finished hend
    refine .ended rfl hout ?_
    simp only [Virtual.drain, Virtual.encode_of_not_live hlive, Virtual.finish_of_not_live hlive,
      append_nil]
    exact hencoded

end

/-! ## Inside of `close` -/

section

variable {c : Steady v} {direct : Bool} {data : Str} {pending : Nat} {s : WvEncoderStream ω κ}

def Closing (W : Cloned κ) (c : Steady v) (direct : Bool) (data : Str) (pending : Nat)
    (done : Bool) (s : WvEncoderStream ω κ) : Prop :=
  Sends W c direct data pending s ∧ s.is_closing = true ∧
    (done = true → s.writechain.finished = true)

/-- What the order of the bytes that are offered depends on while `writeoutbuf` still is to be
offered: that it comes next, or that nothing is accepted any more. -/
def Next (W : Cloned κ) (writeoutbuf : Str) (s : WvEncoderStream ω κ) : Prop :=
  s.AllTaken → s.offered ++ writeoutbuf = s.encoded ∨
    (W.isclosed s.cloned = true ∧ writeoutbuf ≠ [])

theorem Sends.later (h : Sends W c direct data pending s) {k : κ} (hk : W.Later s.cloned k) :
    Sends W c direct data pending { s with cloned := k } := by
  obtain ⟨⟨kept, lost, hdata, hlost, hholds⟩, hbooks, hbounded, hexact, hdirect, hfinished, herrnum,
    hclosed⟩ := h
  refine ⟨⟨kept, lost, hdata, fun hne => ⟨hk.geterr (hlost hne).1, (hlost hne).2⟩, ?_⟩, hbooks,
    hbounded, hexact, hdirect, hfinished, herrnum, hclosed⟩
  cases hholds with
  | coming fed hgo hfed hdata => exact .coming fed hgo hfed hdata
  | ended hend hout hencoded => exact .ended hend hout hencoded

theorem Sends.congr (h : Sends W c direct data pending s) {r : WvEncoderStream ω κ}
    (houtbuf : r.outbuf = s.outbuf) (hwriteinbuf : r.writeinbuf = s.writeinbuf)
    (hwritechain : r.writechain = s.writechain) (hencoded : r.encoded = s.encoded)
    (hoffers : r.offers = s.offers) (hcloned : r.cloned = s.cloned)
    (hdelayed : r.outbuf_delayed_flush = s.outbuf_delayed_flush)
    (hclosing : s.is_closing = true → r.is_closing = true)
    (herrnum : r.errnum = true → r.is_closing = true)
    (hclosed : r.closed = true → r.writechain.finished = true) :
    Sends W c direct data pending r where
  holds := by
    obtain ⟨kept, lost, hdata, hlost, hholds⟩ := h.holds
    refine ⟨kept, lost, hdata, fun hne => hcloned.symm ▸ hlost hne, ?_⟩
    cases hholds with
    | coming fed hgo hfed hdata =>
      exact .coming fed (hwritechain ▸ hgo) (by rw [hwritechain, hwriteinbuf, hencoded]; exact hfed)
        (houtbuf ▸ hdata)
    | ended hend hout hencoded' =>
      exact .ended (hwritechain ▸ hend) (houtbuf ▸ hout) (hencoded ▸ hencoded')
  books := by
    rw [offered, hoffers, hencoded]
    exact h.books
  bounded := hoffers ▸ h.bounded
  exact := by
    rw [AllTaken, offered, hoffers, hencoded]
    exact h.exact
  direct := by
    rw [houtbuf, hdelayed]
    exact h.direct
  finished hend := hclosing (h.finished (hwritechain ▸ hend))
  errnum := herrnum
  closed := hclosed

theorem calm_closing (done : Bool) : Calm W id (Closing W c direct data pending done) where
  closes _ hs := hs
  fails _ hs := ⟨hs.1.congr rfl rfl rfl rfl rfl rfl rfl id (fun _ => hs.2.1) hs.1.closed, hs.2⟩
  cloned _ _ hk hs := ⟨hs.1.later hk, hs.2⟩
  flags _ _ _ _ _ _ hs :=
    ⟨hs.1.congr rfl rfl rfl rfl rfl rfl rfl id hs.1.errnum hs.1.closed, hs.2⟩

theorem ignoresReading_closing (done : Bool) :
    IgnoresReading (Closing (ω := ω) W c direct data pending done) := fun _ _ _ _ _ _ hs =>
  ⟨hs.1.congr rfl rfl rfl rfl rfl rfl rfl id hs.1.errnum hs.1.closed, hs.2⟩

theorem Sends.move (h : Sends W c direct data pending s) (count : Nat) :
    Sends W c direct data pending { s with
      writeinbuf := s.writeinbuf ++ s.outbuf.take count, outbuf := s.outbuf.drop count } where
  holds := by
    obtain ⟨kept, lost, hdata, hlost, hholds⟩ := h.holds
    exact ⟨kept, lost, hdata, hlost, hholds.move count⟩
  books := h.books
  bounded := h.bounded
  exact := h.exact
  direct hdirect := by
    refine ⟨?_, (h.direct hdirect).2⟩
    show s.outbuf.drop count = []
    rw [(h.direct hdirect).1, drop_nil]
  finished := h.finished
  errnum := h.errnum
  closed := h.closed

theorem Sends.emit (h : Sends W c direct data pending s) {writechain : WvEncoderChain ω}
    {writeinbuf out : Str} (hholds : ∀ kept, Holds c kept s →
      Holds c kept { s with writechain, writeinbuf, encoded := s.encoded ++ out })
    (hfinished : writechain.finished = true → s.is_closing = true)
    (hend : s.writechain.finished = true → writechain.finished = true) :
    Sends W c direct data (pending + out.length)
        { s with writechain, writeinbuf, encoded := s.encoded ++ out } ∧
      (pending = 0 → Next W out { s with writechain, writeinbuf, encoded := s.encoded ++ out }) := by
  refine ⟨{
      holds := ?_, books := ?_, bounded := h.bounded, exact := ?_, direct := h.direct,
      finished := hfinished, errnum := h.errnum,
      closed := fun hclosed => hend (h.closed hclosed) }, ?_⟩
  · obtain ⟨kept, lost, hdata, hlost, hkept⟩ := h.holds
    exact ⟨kept, lost, hdata, hlost, hholds kept hkept⟩
  · show s.offered.length + (pending + out.length) = (s.encoded ++ out).length
    rw [length_append, ← h.books, Nat.add_assoc]
  · intro hnone htaken
    obtain ⟨hpending, hout⟩ := Nat.add_eq_zero_iff.mp hnone
    show s.offered = s.encoded ++ out
    rw [length_eq_zero_iff.mp hout, append_nil]
    exact h.exact hpending htaken
  · intro hpending htaken
    exact Or.inl (congrArg (· ++ out) (h.exact hpending htaken))

theorem Sends.merge_outbuf (h : Sends W c direct data pending s) :
    Sends W c direct data pending (merge_outbuf s) := by
  have hmoved := h.move s.outbuf.length
  rw [take_length, drop_length] at hmoved
  exact hmoved

theorem Sends.push_encode (h : Sends W c direct data pending s) (flush finish : Bool)
    (hfinish : finish = true → flush = true ∧ s.outbuf = [] ∧ s.is_closing = true) :
    Sends W c direct data (pending + (push_encode v flush finish s).2.1.length)
        (push_encode v flush finish s).1 ∧
      (pending = 0 → Next W (push_encode v flush finish s).2.1 (push_encode v flush finish s).1) := by
  cases finish with
  | true =>
    obtain ⟨rfl, hout, hclosing⟩ := hfinish rfl
    exact h.emit (fun kept hkept => hkept.finish hout) (fun _ => hclosing) fun _ => rfl
  | false =>
    refine h.emit (fun kept hkept => ?_) (fun hend => h.finished ?_) fun hend => ?_
    · show Holds c kept { s with
        writechain := _, writeinbuf := _, encoded := s.encoded ++ (_ ++ []) }
      rw [append_nil]
      exact hkept.encode flush
    · rw [← hend]
      exact (encode_finished s.writechain s.writeinbuf flush).symm
    · exact (encode_finished s.writechain s.writeinbuf flush).trans hend

open WvEncoderStream

theorem finished_push_encode {flush finish : Bool}
    (h : s.writechain.finished = true ∨ finish = true) :
    (push_encode v flush finish s).1.writechain.finished = true := by
  cases finish with
  | true => rfl
  | false =>
    exact (encode_finished s.writechain s.writeinbuf flush).trans
      (h.resolve_right Bool.false_ne_true)

theorem Sends.offer {writeoutbuf : Str} (h : Sends W c direct data (pending + writeoutbuf.length) s)
    (hnext : pending = 0 → Next W writeoutbuf s) :
    Sends W c direct data pending { s with
      cloned := (W.write s.cloned writeoutbuf).1
      offers := s.offers ++ [⟨writeoutbuf, (W.write s.cloned writeoutbuf).2⟩] } := by
  have hlater := h.later (W.later_write s.cloned writeoutbuf)
  refine {
    holds := ?_, books := ?_, bounded := ?_, exact := ?_, direct := h.direct,
    finished := h.finished, errnum := h.errnum, closed := h.closed }
  · obtain ⟨kept, lost, hdata, hlost, hholds⟩ := hlater.holds
    refine ⟨kept, lost, hdata, hlost, ?_⟩
    cases hholds with
    | coming fed hgo hfed hdata => exact .coming fed hgo hfed hdata
    | ended hend hout hencoded => exact .ended hend hout hencoded
  · rw [← h.books, offered, flatMap_append, length_append]
    simp only [offered, flatMap_cons, flatMap_nil, append_nil]
    omega
  · exact forall_mem_append.mpr ⟨h.bounded, forall_mem_singleton.mpr (W.write_le _ _)⟩
  · intro hpending htaken
    have hbefore : s.AllTaken := fun o ho => htaken o (mem_append_left _ ho)
    have hlast : (W.write s.cloned writeoutbuf).2 = writeoutbuf.length :=
      htaken _ (mem_append_right _ mem_cons_self)
    rcases hnext hpending hbefore with hin | ⟨hclosed, hne⟩
    · rw [← hin]
      simp only [offered, flatMap_append, flatMap_cons, flatMap_nil, append_nil]
    · -- a stream that is closed takes nothing
      rw [W.write_closed _ _ hclosed] at hlast
      exact absurd (length_eq_zero_iff.mp hlast.symm) hne

theorem checkwriteisok_id (s : WvEncoderStream ω κ) :
    checkwriteisok v W id s = s ∨ checkwriteisok v W id s = { s with errnum := true } := by
  rw [checkwriteisok]
  split
  · exact Or.inl rfl
  rw [seterr]
  split
  · exact Or.inl rfl
  · exact Or.inr rfl

theorem Closing.push {done : Bool} (h : Closing W c direct data pending done s)
    {flush finish : Bool} (hfinish : finish = true → flush = true) :
    Closing W c direct data pending (done || finish) (push v W id flush finish s).1 := by
  obtain ⟨hsends, hclosing, hdone⟩ := h
  have hmerge : Closing W c direct data pending done (if flush then merge_outbuf s else s) := by
    split
    · exact ⟨hsends.merge_outbuf, hclosing, hdone⟩
    · exact ⟨hsends, hclosing, hdone⟩
  have hempty : flush = true → (if flush then merge_outbuf s else s).outbuf = [] := by
    rintro rfl
    rfl
  rw [WvEncoderStream.push, cloned_write]
  generalize (if flush then merge_outbuf s else s) = m at hmerge hempty ⊢
  obtain ⟨hsends, hclosing, hdone⟩ := hmerge
  obtain ⟨hencode, hnext⟩ := hsends.push_encode flush finish
    fun hf => ⟨hfinish hf, hempty (hfinish hf), hclosing⟩
  have hend : (done || finish) = true →
      (push_encode v flush finish m).1.writechain.finished = true := fun hor =>
    finished_push_encode ((Bool.or_eq_true _ _).mp hor |>.imp_left hdone)
  have hclosing' : (push_encode v flush finish m).1.is_closing = true := hclosing
  generalize push_encode v flush finish m = r at hencode hnext hend hclosing' ⊢
  refine (calm_closing (done || finish)).called ?_
  rcases checkwriteisok_id (v := v) (W := W) r.1 with heq | heq
  · rw [heq]
    exact ⟨hencode.offer hnext, hclosing', hend⟩
  · rw [heq]
    have herr := hencode.congr (r := { r.1 with errnum := true }) rfl rfl rfl rfl rfl rfl rfl id
      (fun _ => hclosing') hencode.closed
    exact ⟨herr.offer hnext, hclosing', hend⟩

theorem Sends.outbuf_of_finished (h : Sends W c direct data pending s)
    (hend : s.writechain.finished = true) : s.outbuf = [] := by
  obtain ⟨kept, lost, -, -, hholds⟩ := h.holds
  cases hholds with
  | coming fed hgo =>
    rw [hend] at hgo
    exact absurd hgo Bool.true_eq_false_eq_False
  | ended _ hout => exact hout

theorem stable_closing : Stable v W id (Closing W c direct data pending true) where
  toCalm := calm_closing true
  push _ _ hs := hs.push fun hf => absurd hf Bool.false_ne_true
  attempt _ hs := Closing.push ⟨hs.1.move _, hs.2⟩ fun hf => absurd hf Bool.false_ne_true
  zap s hs _ := by
    have hout : [] = s.outbuf := (hs.1.outbuf_of_finished (hs.2.2 rfl)).symm
    exact ⟨hs.1.congr hout rfl rfl rfl rfl rfl rfl id hs.1.errnum hs.1.closed, hs.2⟩
  empty _ := id

/-! ## Outside of it -/

/-- The state when no function of the stream runs, or one that was not called by `close`. -/
def Outer (W : Cloned κ) (c : Steady v) (direct : Bool) (data : Str) (pending : Nat)
    (s : WvEncoderStream ω κ) : Prop :=
  Sends W c direct data pending s ∧ (s.is_closing = true → s.closed = true)

variable (wait : WvEncoderStream ω κ → WvEncoderStream ω κ × Bool)

theorem Closing.clone_close (h : Closing W c direct data pending true s) :
    Outer W c direct data pending (clone_close v W id wait s) ∧
      W.isclosed (clone_close v W id wait s).cloned = true := by
  have hflags : Closing W c direct data pending true { s with closecb := false } :=
    stable_closing.flags s s.stop_read s.stop_write s.want_to_flush s.is_flushing false h
  have hflush := stable_closing.flush wait 2000 hflags
  rw [WvEncoderStream.clone_close]
  generalize (WvEncoderStream.flush v W id wait 2000 { s with closecb := false }).1 = r at hflush ⊢
  obtain ⟨hsends, hclosing, hend⟩ := hflush
  refine ⟨⟨?_, fun _ => rfl⟩, W.isclosed_close _⟩
  have hclosed : Sends W c direct data pending { r with closed := true } :=
    hsends.congr rfl rfl rfl rfl rfl rfl rfl id hsends.errnum fun _ => hend rfl
  exact hclosed.later (W.later_close r.cloned)

theorem Outer.close (h : Outer W c direct data pending s) (errnum : Bool) :
    Outer W c direct data pending (close v W wait { s with errnum }) ∧
      (s.is_closing = false → W.isclosed (close v W wait { s with errnum }).cloned = true) := by
  obtain ⟨hsends, hclosed⟩ := h
  rw [WvEncoderStream.close]
  split
  · rename_i hclosing
    refine ⟨⟨hsends.congr rfl rfl rfl rfl rfl rfl rfl id (fun _ => hclosing) hsends.closed,
      hclosed⟩, fun hopen => ?_⟩
    exact absurd (hopen.symm.trans hclosing) Bool.false_ne_true
  have hstart : Closing W c direct data pending false { s with errnum, is_closing := true } :=
    ⟨hsends.congr rfl rfl rfl rfl rfl rfl rfl (fun _ => rfl) (fun _ => rfl) hsends.closed, rfl,
      fun hf => absurd hf Bool.false_ne_true⟩
  have hread := (calm_closing false).finish_read (v := v) (ignoresReading_closing false) hstart
  have hwrite : Closing W c direct data pending true (finish_write v W id
      (finish_read v W id { s with errnum, is_closing := true }).1).1 := hread.push fun _ => rfl
  exact ⟨(hwrite.clone_close wait).1, fun _ => (hwrite.clone_close wait).2⟩

theorem calm_outer : Calm W (close v W wait) (Outer W c direct data pending) where
  closes s hs := (hs.close wait s.errnum).1
  fails _ hs := (hs.close wait true).1
  cloned _ _ hk hs := ⟨hs.1.later hk, hs.2⟩
  flags _ _ _ _ _ _ hs :=
    ⟨hs.1.congr rfl rfl rfl rfl rfl rfl rfl id hs.1.errnum hs.1.closed, hs.2⟩

theorem ignoresReading_outer : IgnoresReading (Outer (ω := ω) W c direct data pending) :=
  fun _ _ _ _ _ _ hs =>
    ⟨hs.1.congr rfl rfl rfl rfl rfl rfl rfl id hs.1.errnum hs.1.closed, hs.2⟩

theorem Outer.checkwriteisok {writeoutbuf : Str}
    (h : Outer W c direct data (pending + writeoutbuf.length) s)
    (hnext : pending = 0 → Next W writeoutbuf s) :
    Outer W c direct data (pending + writeoutbuf.length)
        (checkwriteisok v W (WvEncoderStream.close v W wait) s) ∧ (pending = 0 →
        Next W writeoutbuf (checkwriteisok v W (WvEncoderStream.close v W wait) s)) := by
  refine ⟨(calm_outer wait).checkwriteisok h, fun hpending => ?_⟩
  rw [WvEncoderStream.checkwriteisok]
  split
  · exact hnext hpending
  rw [seterr]
  split
  · exact hnext hpending
  obtain ⟨hafter, hclosed⟩ := h.close wait true
  by_cases hclosing : s.is_closing = true
  · rw [WvEncoderStream.close, if_pos hclosing]
    exact hnext hpending
  intro htaken
  by_cases hnone : writeoutbuf = []
  · -- nothing is pending
    left
    rw [hnone, append_nil]
    exact hafter.1.exact (by rw [hpending, hnone]; rfl) htaken
  · exact Or.inr ⟨hclosed (Bool.eq_false_iff.mpr hclosing), hnone⟩

theorem Outer.push (h : Outer W c direct data pending s) (flush : Bool) :
    Outer W c direct data pending (push v W (WvEncoderStream.close v W wait) flush false s).1 := by
  have hmerge : Outer W c direct data pending (if flush then merge_outbuf s else s) := by
    split
    · exact ⟨h.1.merge_outbuf, h.2⟩
    · exact h
  rw [WvEncoderStream.push, cloned_write]
  generalize (if flush then merge_outbuf s else s) = m at hmerge ⊢
  obtain ⟨hencode, hnext⟩ := hmerge.1.push_encode flush false
    fun hf => absurd hf Bool.false_ne_true
  have hclosed : (push_encode v flush false m).1.is_closing = true →
      (push_encode v flush false m).1.closed = true := hmerge.2
  generalize push_encode v flush false m = r at hencode hnext hclosed ⊢
  obtain ⟨hcheck, hnext'⟩ := Outer.checkwriteisok wait ⟨hencode, hclosed⟩ hnext
  exact (calm_outer wait).called ⟨hcheck.1.offer hnext', hcheck.2⟩

theorem stable_outer :
    Stable v W (WvEncoderStream.close v W wait) (Outer W c direct data pending) where
  toCalm := calm_outer wait
  push flush _ hs := hs.push wait flush
  attempt _ hs := Outer.push wait ⟨hs.1.move _, hs.2⟩ false
  zap s hs hok := by
    obtain ⟨⟨kept, lost, hdata, hlost, hholds⟩, hbooks, hbounded, hexact, hdirect, hfinished,
      herrnum, hclosed⟩ := hs.1
    refine ⟨⟨?_, hbooks, hbounded, hexact, fun hd => ⟨rfl, (hdirect hd).2⟩, hfinished, herrnum,
      hclosed⟩, hs.2⟩
    cases hholds with
    | ended hend hout hencoded => exact ⟨kept, lost, hdata, hlost, .ended hend rfl hencoded⟩
    | coming fed hgo hfed hkept =>
      refine ⟨fed, s.outbuf ++ lost, by rw [hdata, hkept, append_assoc], fun hne => ?_,
        .coming fed hgo hfed (append_nil fed).symm⟩
      -- it is the cloned stream that is not ok
      have hopen : s.closed = false := by
        rw [Bool.eq_false_iff]
        intro hc
        rw [hclosed hc] at hgo
        exact Bool.noConfusion hgo
      have hwell : s.errnum = false := by
        rw [Bool.eq_false_iff]
        intro he
        rw [hs.2 (herrnum he)] at hopen
        exact Bool.noConfusion hopen
      have herr : W.geterr s.cloned = true := by
        simpa [isok, hopen, hwell] using hok
      refine ⟨herr, ?_⟩
      cases direct with
      | false => rfl
      | true =>
        rw [(hdirect rfl).1, nil_append] at hne
        exact (hlost hne).2
  empty := outbuf_close

theorem Outer.coming (h : Outer W c direct data pending s) (hok : s.isok W = true) :
    s.writechain.finished = false ∧ Holds c data s ∧ W.geterr s.cloned = false := by
  simp only [isok, Bool.and_eq_true, Bool.not_eq_true'] at hok
  obtain ⟨⟨hopen, -⟩, hwell⟩ := hok
  obtain ⟨kept, lost, hdata, hlost, hholds⟩ := h.1.holds
  have hnone : lost = [] := by
    by_contra hne
    rw [(hlost hne).1] at hwell
    exact Bool.noConfusion hwell
  rw [hnone, append_nil] at hdata
  refine ⟨Bool.eq_false_iff.mpr fun hend => ?_, hdata ▸ hholds, hwell⟩
  rw [h.2 (h.1.finished hend)] at hopen
  exact Bool.noConfusion hopen

theorem Outer.put (h : Outer W c direct data pending s) (hok : s.isok W = true)
    (part outbuf writeinbuf : Str) (hdirect : direct = true → outbuf = [])
    (hput : (outbuf = s.outbuf ++ part ∧ writeinbuf = s.writeinbuf) ∨
      (s.outbuf = [] ∧ outbuf = [] ∧ writeinbuf = s.writeinbuf ++ part)) :
    Outer W c direct (data ++ part) pending { s with outbuf, writeinbuf } := by
  obtain ⟨hgo, hholds, hwell⟩ := h.coming hok
  refine ⟨⟨⟨data ++ part, [], (append_nil _).symm, fun hne => absurd rfl hne, ?_⟩, h.1.books,
    h.1.bounded, h.1.exact, fun hd => ⟨hdirect hd, (h.1.direct hd).2⟩, h.1.finished, h.1.errnum,
    h.1.closed⟩, h.2⟩
  cases hholds with
  | ended hend =>
    rw [hend] at hgo
    exact Bool.noConfusion hgo
  | coming fed hgo hfed hdata =>
    rcases hput with ⟨hout, hin⟩ | ⟨hnone, hout, hin⟩
    · refine .coming fed hgo (hin ▸ hfed) ?_
      show data ++ part = fed ++ outbuf
      rw [hdata, hout, append_assoc]
    · refine .coming (fed ++ part) hgo (hin ▸ hfed.put part) ?_
      show data ++ part = fed ++ part ++ outbuf
      rw [hdata, hnone, hout, append_nil, append_nil]

theorem buffered_zero (s : WvEncoderStream ω κ) : buffered 0 s = 0 := by
  rw [buffered]
  split
  · exact Nat.zero_min _
  · rfl

theorem Outer.write (h : Outer W c direct data 0 s) (buf : Str) :
    Outer W c direct (data ++ buf.take (write v W (WvEncoderStream.close v W wait) wait buf s).2) 0
      (write v W (WvEncoderStream.close v W wait) wait buf s).1 := by
  rw [WvEncoderStream.write]
  split
  · rw [List.take_zero, List.append_nil]
    exact h
  rename_i hcond
  simp only [Bool.or_eq_true, Bool.not_eq_true', not_or, Bool.not_eq_false] at hcond
  have hok : s.isok W = true := hcond.1.1
  by_cases hbypass : (!s.outbuf_delayed_flush && s.outbuf.isEmpty) = true
  · rw [if_pos hbypass]
    have hempty : s.outbuf = [] := by
      rw [Bool.and_eq_true, List.isEmpty_iff] at hbypass
      exact hbypass.2
    have hput := h.put hok buf s.outbuf (s.writeinbuf ++ buf) (fun _ => hempty)
      (Or.inr ⟨hempty, hempty, rfl⟩)
    have hpush := hput.push wait false
    simp only [uwrite, Nat.sub_self, buffered_zero, List.take_zero, List.append_nil, Nat.add_zero,
      List.take_length]
    exact (stable_outer wait).flush_write wait hpush
  · rw [if_neg hbypass]
    simp only [Nat.sub_zero, List.drop_zero, Nat.zero_add]
    have hdelayed : direct = true → s.outbuf ++ buf.take (buffered buf.length s) = [] := fun hd =>
      absurd (by rw [(h.1.direct hd).1, (h.1.direct hd).2]; rfl) hbypass
    have hput := h.put hok (buf.take (buffered buf.length s)) _ s.writeinbuf hdelayed
      (Or.inl ⟨rfl, rfl⟩)
    have hflush := (stable_outer wait).flush_write wait hput
    exact hflush

/-! ## Runs -/

theorem sends_start (readers : List (WvEncoder ω)) (k : κ) :
    Outer W c direct [] 0 (Session.new readers c.encoders k).stream := by
  refine ⟨⟨⟨[], [], rfl, fun hne => absurd rfl hne, .coming [] rfl .start rfl⟩, rfl,
    nofun, fun _ _ => rfl, fun _ => ⟨rfl, rfl⟩, Bool.noConfusion,
    Bool.noConfusion, Bool.noConfusion⟩, Bool.noConfusion⟩

theorem Outer.set (h : Outer W c direct data 0 s) (queue_min min_readsize max_outbuf_size : Nat)
    (is_auto_flush : Bool) :
    Outer W c direct data 0 { s with queue_min, min_readsize, max_outbuf_size, is_auto_flush } :=
  ⟨h.1.congr rfl rfl rfl rfl rfl rfl rfl id h.1.errnum h.1.closed, h.2⟩

theorem sends_step {t : Session ω κ} (h : Outer W c direct t.data 0 t.stream) (op : Op)
    (hop : direct = true → op ≠ .delay_output true) :
    Outer W c direct (t.step v W wait op).1.data 0 (t.step v W wait op).1.stream := by
  cases op with
  | write buf => exact h.write wait buf
  | flush msec_timeout => exact (stable_outer wait).flush wait msec_timeout h
  | close => exact (h.close wait t.stream.errnum).1
  | read count => exact (calm_outer wait).read ignoresReading_outer count h
  | select readable =>
    exact (stable_outer wait).select wait
      (fun _ hs _ => (calm_outer wait).pull ignoresReading_outer.pulling 0 hs) readable h
  | noread => exact (calm_outer wait).noread (fun _ => (calm_outer wait).called) h
  | nowrite => exact (calm_outer wait).nowrite (fun _ => (calm_outer wait).called) h
  | queuemin count => exact h.set count _ _ _
  | min_readsize size => exact h.set _ size _ _
  | outbuf_limit size => exact h.set _ _ size _
  | auto_flush is_automatic => exact h.set _ _ _ is_automatic
  | delay_output is_delayed =>
    obtain ⟨⟨hholds, hbooks, hbounded, hexact, hdirect, hfinished, herrnum, hclosed⟩, hclosing⟩ := h
    refine ⟨⟨?_, hbooks, hbounded, hexact, fun hd => ⟨(hdirect hd).1, ?_⟩, hfinished, herrnum,
      hclosed⟩, hclosing⟩
    · obtain ⟨kept, lost, hdata, hlost, hkept⟩ := hholds
      refine ⟨kept, lost, hdata, hlost, ?_⟩
      cases hkept with
      | coming fed hgo hfed hdata => exact .coming fed hgo hfed hdata
      | ended hend hout hencoded => exact .ended hend hout hencoded
    · cases is_delayed with
      | false => rfl
      | true => exact absurd rfl (hop hd)

theorem sends_run {t : Session ω κ} (h : Outer W c direct t.data 0 t.stream) {ops : List Op}
    (hops : direct = true → ∀ op ∈ ops, op ≠ .delay_output true) :
    Outer W c direct (t.run v W wait ops).data 0 (t.run v W wait ops).stream := by
  induction ops generalizing t with
  | nil => exact h
  | cons op ops ih =>
    exact ih (sends_step wait h op fun hd => hops hd op mem_cons_self)
      fun hd op' hop => hops hd op' (mem_cons_of_mem op hop)

theorem Outer.holds (h : Outer W c direct data pending s)
    (hwell : W.geterr s.cloned = false ∨ direct = true) : Holds c data s := by
  obtain ⟨kept, lost, hdata, hlost, hholds⟩ := h.1.holds
  have hnone : lost = [] := by
    by_contra hne
    obtain ⟨herr, hdelayed⟩ := hlost hne
    rcases hwell with hok | hdirect
    · exact absurd (herr.symm.trans hok) Bool.true_eq_false_eq_False
    · exact absurd (hdirect.symm.trans hdelayed) Bool.true_eq_false_eq_False
  rw [hnone, append_nil] at hdata
  exact hdata ▸ hholds

theorem Holds.encoded_prefix (h : Holds c data s) : s.encoded <+: c.output data := by
  cases h with
  | coming fed hgo hfed hdata =>
    rw [hdata]
    exact hfed.out_prefix c.independent s.outbuf
  | ended hend hout hencoded => exact hencoded ▸ prefix_refl _

theorem AllTaken.accepted_eq (h : s.AllTaken) : s.accepted = s.offered := by
  rw [accepted, offered, flatMap_def, flatMap_def]
  congr 1
  refine map_congr_left fun o ho => ?_
  rw [h o ho, take_length]

theorem allTaken_of_length {offers : List Offer} (hbounded : ∀ o ∈ offers, o.len ≤ o.buf.length)
    (h : (offers.flatMap fun o => o.buf.take o.len).length = (offers.flatMap Offer.buf).length) :
    ∀ o ∈ offers, o.Taken := by
  induction offers with
  | nil => exact nofun
  | cons o offers ih =>
    have hle : ∀ offers : List Offer,
        (offers.flatMap fun o => o.buf.take o.len).length ≤ (offers.flatMap Offer.buf).length := by
      intro offers
      induction offers with
      | nil => exact Nat.le_refl 0
      | cons o offers ih =>
        rw [flatMap_cons, flatMap_cons, length_append, length_append]
        exact Nat.add_le_add (length_take_le' _ _) ih
    have ho := hbounded o mem_cons_self
    have hrest := hle offers
    rw [flatMap_cons, flatMap_cons, length_append, length_append, length_take_of_le ho] at h
    intro o' ho'
    rcases mem_cons.mp ho' with rfl | hmem
    · show o'.len = o'.buf.length
      omega
    · exact ih (fun o'' hin => hbounded o'' (mem_cons_of_mem o hin)) (by omega) o' hmem

variable (W c)

/-- Where the cloned stream accepts whatever it is offered, it receives what the write chain puts
out, and when the stream is closed it has received all of it. Where it once does not, some of it
is missing for ever. If the output is delayed, this is so unless the cloned stream has an error,
as `flush_outbuf` gives up then. -/
theorem delivers_iff (readers : List (WvEncoder ω)) (k : κ) (ops : List Op)
    (t : Session ω κ) (ht : t = (Session.new readers c.encoders k).run v W wait ops)
    (hwell : W.geterr t.stream.cloned = false ∨ ∀ op ∈ ops, op ≠ .delay_output true) :
    (t.stream.AllTaken → t.stream.accepted <+: c.output t.data) ∧ (t.stream.closed = true →
        (t.stream.accepted = c.output t.data ↔ t.stream.AllTaken)) := by
  obtain ⟨direct, hrun, hdirect⟩ : ∃ direct, Outer W c direct t.data 0 t.stream ∧
      (W.geterr t.stream.cloned = false ∨ direct = true) := by
    rcases hwell with hok | hnodelay
    · refine ⟨false, ?_, Or.inl hok⟩
      rw [ht]
      exact sends_run wait (sends_start readers k) Bool.noConfusion
    · refine ⟨true, ?_, Or.inr rfl⟩
      rw [ht]
      exact sends_run wait (sends_start readers k) fun _ => hnodelay
  have hholds := hrun.holds hdirect
  refine ⟨fun htaken => ?_, fun hclosed => ?_⟩
  · rw [htaken.accepted_eq, hrun.1.exact rfl htaken]
    exact hholds.encoded_prefix
  · have hencoded : t.stream.encoded = c.output t.data := by
      cases hholds with
      | coming fed hgo =>
        rw [hrun.1.closed hclosed] at hgo
        exact absurd hgo Bool.true_eq_false_eq_False
      | ended hend hout hencoded => exact hencoded
    rw [← hencoded]
    refine ⟨fun hall => ?_, fun htaken => ?_⟩
    · exact allTaken_of_length hrun.1.bounded
        ((congrArg length hall).trans hrun.1.books.symm)
    · rw [htaken.accepted_eq, hrun.1.exact rfl htaken]

end

end WvEncoderStream

/-! ## A stream that does not accept everything -/

def WvPassthroughEncoder : Virtual Nat where
  _encode e inbuf _ := ⟨{ e with self := e.self + inbuf.length }, [], inbuf, true⟩
  _finish e := ⟨e, [], [], true⟩

theorem fed_nil {ω : Type} {v : Virtual ω} {data inbuf out : Str} {e : WvEncoderChain ω}
    (h : (chain v).Fed (new []) data e inbuf out) : e = new [] ∧ out ++ inbuf = data := by
  induction h with
  | start => exact ⟨rfl, rfl⟩
  | put h chunk ih => exact ⟨ih.1, by rw [← append_assoc, ih.2]⟩
  | @encode data e inbuf out h flush ih =>
    obtain ⟨rfl, rfl⟩ := ih
    rw [Virtual.encode]
    split
    · refine ⟨rfl, ?_⟩
      show (out ++ inbuf) ++ [] = out ++ inbuf
      rw [append_nil]
    · refine ⟨rfl, ?_⟩
      show (out ++ []) ++ inbuf = out ++ inbuf
      rw [append_nil]

theorem drain_nil {ω : Type} {v : Virtual ω} (data : Str) :
    (chain v).drain (new []) data = data := by
  have hlive : (new (ω := ω) []).live = true := rfl
  rw [Virtual.drain, Virtual.encode, hlive, Bool.or_true, Bool.and_true, if_pos rfl]
  exact append_nil data

/-- A chain without encoders. -/
def Steady.empty {ω : Type} (v : Virtual ω) : Steady v where
  encoders := []
  independent data e inbuf out h := by
    obtain ⟨rfl, rfl⟩ := fed_nil h
    rw [drain_nil, drain_nil]

namespace WvEncoderStream

theorem length_zeros (count : Nat) : (replicate count 0 : Str).length = count :=
  length_replicate

/-- A stream that accepts some bytes in each `write` and has nothing to read. Its state tells
whether it is closed. -/
def sink (limit : Nat) : Cloned Bool where
  read k _ := (k, [])
  write k buf := (k, if k then 0 else min limit buf.length)
  flush k _ := (k, true)
  noread k := k
  nowrite k := k
  close _ := true
  pre_select k := k
  post_select k := k
  should_flush _ := false
  isok k := !k
  isclosed k := k
  geterr _ := false
  select k := (k, .well true false)
  read_le _ _ := Nat.zero_le _
  write_le k buf := by
    cases k with
    | false => exact Nat.min_le_right _ _
    | true => exact Nat.zero_le _
  isok_of_isclosed k hk := by
    rw [hk]
    rfl
  isclosed_close _ := rfl
  write_closed k buf hk := by rw [hk]; rfl
  later_read _ _ := .refl _
  later_write _ _ := .refl _
  later_flush _ _ := .refl _
  later_noread _ := .refl _
  later_nowrite _ := .refl _
  later_close _ := ⟨fun _ => rfl, fun _ => rfl, id⟩
  later_pre_select _ := .refl _
  later_post_select _ := .refl _
  later_select _ := .refl _
  alloc count := List.replicate count 0
  length_alloc := length_zeros
  optgettable := List.length

/-- A run of `delivers_iff`. -/
theorem delivers_all :
    let t := (Session.new (ω := Nat) [] [] false).run WvPassthroughEncoder (sink 4)
      (fun s => (s, true)) [.write [97, 98], .flush 0, .close]
    (t.stream.AllTaken → t.stream.accepted <+: (Steady.empty WvPassthroughEncoder).output t.data) ∧
      (t.stream.closed = true →
        (t.stream.accepted = (Steady.empty WvPassthroughEncoder).output t.data ↔
          t.stream.AllTaken)) :=
  delivers_iff (sink 4) (Steady.empty WvPassthroughEncoder) (fun s => (s, true)) [] false
    [.write [97, 98], .flush 0, .close] _ rfl (Or.inl rfl)

/-- The cloned stream accepts one byte of two. The other one is not offered again, and is missing
when the stream is closed. -/
theorem drops_refused :
    let t := (Session.new (ω := Nat) [] [] false).run WvPassthroughEncoder (sink 1)
      (fun s => (s, true)) [.write [97, 98], .flush 0, .flush 0, .close]
    t.data = [97, 98] ∧ (Steady.empty WvPassthroughEncoder).output t.data = [97, 98] ∧
      t.stream.closed = true ∧ t.stream.offered = [97, 98] ∧ t.stream.accepted = [97] := by
  refine ⟨rfl, ?_, rfl, rfl, rfl⟩
  exact drain_nil _

end WvEncoderStream

end WvStreams
