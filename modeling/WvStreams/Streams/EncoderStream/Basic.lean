import WvStreams.Codecs.EncoderChain
import WvStreams.Streams.Stream

/-!
# `WvEncoderStream`

A stream that reads and writes another one, the cloned stream, through two chains of encoders.
What it calls may call it again: a chain that is in error closes the stream, and so does the
cloned stream when it is closed, by its close callback. But `is_closing` makes `close` do nothing
when it is called a second time. So every function is given the `close` that it calls: inside of
`close` that is `id`, outside of it `close` itself.
-/

namespace WvStreams

open WvEncoderChain

open WvEncoder (Virtual)

/-- The functions of the cloned stream that are used, and what `::select` answers. -/
structure IWvStream (κ : Type) where
  read : κ → Nat → κ × Str
  write : κ → Str → κ × Nat
  flush : κ → Int → κ × Bool
  noread : κ → κ
  nowrite : κ → κ
  close : κ → κ
  pre_select : κ → κ
  post_select : κ → κ
  should_flush : κ → Bool
  isok : κ → Bool
  isclosed : κ → Bool
  geterr : κ → Bool
  select : κ → κ × Selected

/-- What does not change any more. -/
structure IWvStream.Later {κ : Type} (W : IWvStream κ) (k k' : κ) : Prop where
  isok : W.isok k = false → W.isok k' = false
  isclosed : W.isclosed k = true → W.isclosed k' = true
  geterr : W.geterr k = true → W.geterr k' = true

/-- A cloned stream. When it is closed it is not ok and accepts nothing, but there may still be
something to read. The buffers of a `WvStream` are lists here: `alloc` is what new memory holds,
and `optgettable` how many bytes come in one piece. -/
structure Cloned (κ : Type) extends IWvStream κ where
  read_le : ∀ k count, (read k count).2.length ≤ count
  write_le : ∀ k buf, (write k buf).2 ≤ buf.length
  isok_of_isclosed : ∀ k, isclosed k = true → isok k = false
  isclosed_close : ∀ k, isclosed (close k) = true
  write_closed : ∀ k buf, isclosed k = true → (write k buf).2 = 0
  later_read : ∀ k count, toIWvStream.Later k (read k count).1
  later_write : ∀ k buf, toIWvStream.Later k (write k buf).1
  later_flush : ∀ k msec_timeout, toIWvStream.Later k (flush k msec_timeout).1
  later_noread : ∀ k, toIWvStream.Later k (noread k)
  later_nowrite : ∀ k, toIWvStream.Later k (nowrite k)
  later_close : ∀ k, toIWvStream.Later k (close k)
  later_pre_select : ∀ k, toIWvStream.Later k (pre_select k)
  later_post_select : ∀ k, toIWvStream.Later k (post_select k)
  later_select : ∀ k, toIWvStream.Later k (select k).1
  alloc : Nat → Str
  length_alloc : ∀ count, (alloc count).length = count
  optgettable : Str → Nat

/-- A call of the cloned stream's `write`, and how much it accepted. -/
structure Offer where
  buf : Str
  len : Nat

/-- The whole was accepted. -/
def Offer.Taken (o : Offer) : Prop := o.len = o.buf.length

/-- The fields of a `WvStream` that are used, those of the stream itself, and the cloned stream
with its close callback. The last ones are a record: what the cloned stream was given, what the
write chain has put out, and what the cloned stream has delivered. -/
structure WvEncoderStream (ω κ : Type) where
  inbuf : Str := []
  outbuf : Str := []
  stop_read : Bool := false
  stop_write : Bool := false
  closed : Bool := false
  errnum : Bool := false
  max_outbuf_size : Nat := 0
  outbuf_delayed_flush : Bool := false
  is_auto_flush : Bool := true
  want_to_flush : Bool := true
  is_flushing : Bool := false
  queue_min : Nat := 0
  is_closing : Bool := false
  readinbuf : Str := []
  readoutbuf : Str := []
  writeinbuf : Str := []
  readchain : WvEncoderChain ω
  writechain : WvEncoderChain ω
  min_readsize : Nat := 0
  cloned : κ
  closecb : Bool := true
  offers : List Offer := []
  encoded : Str := []
  input : Str := []

namespace WvEncoderStream

variable {ω κ : Type} (v : Virtual ω) (W : Cloned κ)
  (close : WvEncoderStream ω κ → WvEncoderStream ω κ)

def isok (s : WvEncoderStream ω κ) : Bool := !s.closed && !s.errnum && !W.geterr s.cloned

def maybe_autoclose (s : WvEncoderStream ω κ) : WvEncoderStream ω κ :=
  if s.stop_read && s.stop_write && s.outbuf.isEmpty && s.inbuf.isEmpty && !s.closed then close s
  else s

/-- `noread`, given what a call of the cloned stream may bring about. -/
def noread (called : WvEncoderStream ω κ → WvEncoderStream ω κ) (s : WvEncoderStream ω κ) :
    WvEncoderStream ω κ :=
  let s := called { s with cloned := W.noread s.cloned }
  maybe_autoclose close { s with stop_read := true }

def nowrite (called : WvEncoderStream ω κ → WvEncoderStream ω κ) (s : WvEncoderStream ω κ) :
    WvEncoderStream ω κ :=
  let s := if s.outbuf.isEmpty then called { s with cloned := W.nowrite s.cloned } else s
  maybe_autoclose close { s with stop_write := true }

def close_callback (s : WvEncoderStream ω κ) : WvEncoderStream ω κ :=
  noread W close id (nowrite W close id s)

/-- The cloned stream has been called, and may have been closed. -/
def called (s : WvEncoderStream ω κ) : WvEncoderStream ω κ :=
  if W.isclosed s.cloned && s.closecb then close_callback W close { s with closecb := false }
  else s

def seterr (s : WvEncoderStream ω κ) : WvEncoderStream ω κ :=
  if s.errnum || W.geterr s.cloned then s else close { s with errnum := true }

def checkreadisok (s : WvEncoderStream ω κ) : WvEncoderStream ω κ :=
  if (chain v).isok s.readchain then s
  else noread W close (called W close) (seterr W close s)

def checkwriteisok (s : WvEncoderStream ω κ) : WvEncoderStream ω κ :=
  if (chain v).isok s.writechain then s else seterr W close s

/-- `cloned->write` of a buffer; what is left in it is not looked at again. -/
def cloned_write (writeoutbuf : Str) (s : WvEncoderStream ω κ) : WvEncoderStream ω κ :=
  let answer := W.write s.cloned writeoutbuf
  called W close
    { s with cloned := answer.1, offers := s.offers ++ [⟨writeoutbuf, answer.2⟩] }

/-- What `push` does to the write chain, and its `writeoutbuf`. -/
def push_encode (flush finish : Bool) (s : WvEncoderStream ω κ) :
    WvEncoderStream ω κ × Str × Bool :=
  let r := (chain v).encode s.writechain s.writeinbuf flush
  let f := if finish then (chain v).finish r.enc else ⟨r.enc, [], [], true⟩
  ({ s with writechain := f.enc, writeinbuf := r.rest, encoded := s.encoded ++ (r.out ++ f.out) },
    r.out ++ f.out, r.success && f.success)

def merge_outbuf (s : WvEncoderStream ω κ) : WvEncoderStream ω κ :=
  { s with writeinbuf := s.writeinbuf ++ s.outbuf, outbuf := [] }

def push (flush finish : Bool) (s : WvEncoderStream ω κ) : WvEncoderStream ω κ × Bool :=
  let r := push_encode v flush finish (if flush then merge_outbuf s else s)
  (cloned_write W close r.2.1 (checkwriteisok v W close r.1), r.2.2)

def flush_write (s : WvEncoderStream ω κ) : WvEncoderStream ω κ × Bool := push v W close true false s

def finish_write (s : WvEncoderStream ω κ) : WvEncoderStream ω κ × Bool := push v W close true true s

def uwrite (buf : Str) (s : WvEncoderStream ω κ) : WvEncoderStream ω κ × Nat :=
  ((push v W close false false { s with writeinbuf := s.writeinbuf ++ buf }).1, buf.length)

/-- The part of `flush_internal` that is from `WvStreamClone`. -/
def clone_flush (msec_timeout : Int) (s : WvEncoderStream ω κ) : WvEncoderStream ω κ × Bool :=
  let s := if s.stop_write && s.outbuf.isEmpty
    then called W close { s with cloned := W.nowrite s.cloned } else s
  let answer := W.flush s.cloned msec_timeout
  (called W close { s with cloned := answer.1 }, answer.2)

def flush_internal (msec_timeout : Int) (s : WvEncoderStream ω κ) : WvEncoderStream ω κ × Bool :=
  clone_flush W close msec_timeout (flush_write v W close s).1

def attempt (s : WvEncoderStream ω κ) : WvEncoderStream ω κ :=
  let count := min (W.optgettable s.outbuf) s.outbuf.length
  (uwrite v W close (s.outbuf.take count) { s with outbuf := s.outbuf.drop count }).1

variable (wait : WvEncoderStream ω κ → WvEncoderStream ω κ × Bool)

/-- `flush_outbuf`. What becomes of its loop when there is a timeout, and `outbuf_was_used` after
that, is left to `wait`: a `flush` comes to it with an empty output buffer
(`outbuf_flush_internal`). -/
def flush_outbuf (msec_timeout : Int) (s : WvEncoderStream ω κ) : WvEncoderStream ω κ × Bool :=
  if s.outbuf.isEmpty && !s.outbuf_delayed_flush then (maybe_autoclose close s, true)
  else
    let (s, outbuf_was_used) :=
      if !s.outbuf.isEmpty && s.isok W then
        let s := attempt v W close s
        if msec_timeout = 0 then (s, true) else wait s
      else (s, !s.outbuf.isEmpty)
    let s : WvEncoderStream ω κ :=
      if s.outbuf_delayed_flush && !outbuf_was_used then { s with want_to_flush := false } else s
    -- if we can't flush the outbuf, at least empty it!
    let s : WvEncoderStream ω κ :=
      if outbuf_was_used && !s.isok W then { s with outbuf := [] } else s
    (maybe_autoclose close s, !outbuf_was_used)

def flush (msec_timeout : Int) (s : WvEncoderStream ω κ) : WvEncoderStream ω κ × Bool :=
  if s.is_flushing then (s, false)
  else
    let (s, done) := flush_internal v W close msec_timeout
      { s with is_flushing := true, want_to_flush := true }
    let (s, done) := if done then flush_outbuf v W close wait msec_timeout s else (s, false)
    ({ s with is_flushing := false }, done)

def finish_read (s : WvEncoderStream ω κ) : WvEncoderStream ω κ × Bool :=
  let r := (chain v).encode s.readchain s.readinbuf true
  let f := (chain v).finish r.enc
  let s := checkreadisok v W close { s with
    readchain := f.enc, readinbuf := r.rest, readoutbuf := s.readoutbuf ++ r.out ++ f.out }
  ({ s with inbuf := s.inbuf ++ s.readoutbuf, readoutbuf := [] }, r.success && f.success)

/-- `close` of the classes that it is derived from. -/
def clone_close (s : WvEncoderStream ω κ) : WvEncoderStream ω κ :=
  let s := (flush v W close wait 2000 { s with closecb := false }).1
  { s with closed := true, cloned := W.close s.cloned }

end WvEncoderStream

/-- `close`, inside of which `close` does nothing. -/
def WvEncoderStream.close {ω κ : Type} (v : Virtual ω) (W : Cloned κ)
    (wait : WvEncoderStream ω κ → WvEncoderStream ω κ × Bool) (s : WvEncoderStream ω κ) :
    WvEncoderStream ω κ :=
  if s.is_closing then s
  else
    let s := (finish_read v W id { s with is_closing := true }).1
    let s := (finish_write v W id s).1
    clone_close v W id wait s

namespace WvEncoderStream

variable {ω κ : Type} (v : Virtual ω) (W : Cloned κ)

section

variable (close : WvEncoderStream ω κ → WvEncoderStream ω κ)

/-- `cloned->read` into `readinbuf`. The bytes are put there when the cloned stream has returned. -/
def cloned_read (size : Nat) (s : WvEncoderStream ω κ) : WvEncoderStream ω κ :=
  let answer := W.read s.cloned size
  let s := called W close { s with cloned := answer.1 }
  { s with readinbuf := s.readinbuf ++ answer.2, input := s.input ++ answer.2 }

/-- What `pull` does to the read chain while there is more to come. -/
def pull_encode (s : WvEncoderStream ω κ) : WvEncoderStream ω κ :=
  let c := continue_encode v s.readchain s.readoutbuf
  let r := (chain v).encode c.enc s.readinbuf true
  { s with readchain := r.enc, readinbuf := r.rest, readoutbuf := c.out ++ r.out }

def pull (size : Nat) (s : WvEncoderStream ω κ) : WvEncoderStream ω κ :=
  let s := if size = 0 then s else cloned_read W close size s
  let finish := !W.isok s.cloned
  let s := pull_encode v s
  let s :=
    if finish then
      let f := (chain v).finish s.readchain
      close { s with readchain := f.enc, readoutbuf := s.readoutbuf ++ f.out }
    else if s.readoutbuf.isEmpty && s.inbuf.isEmpty &&
      (chain v).isfinished s.readchain then close s
    else s
  checkreadisok v W close s

def uread (size : Nat) (s : WvEncoderStream ω κ) : WvEncoderStream ω κ × Str :=
  let s := if size ≠ 0 && s.readoutbuf.isEmpty then pull v W close (max s.min_readsize size) s else s
  ({ s with readoutbuf := s.readoutbuf.drop size }, s.readoutbuf.take size)

/-- The part of `read` that fills the input buffer up to `queue_min`. The memory for it is
allocated first, what `uread` returns is put there, and as many bytes as it did not return are
taken from the end again. -/
def fill (s : WvEncoderStream ω κ) : WvEncoderStream ω κ :=
  let bufu := s.inbuf.length
  if bufu < s.queue_min then
    let count := s.queue_min - bufu
    let (s, newbuf) := uread v W close count { s with inbuf := s.inbuf ++ W.alloc count }
    let inbuf := s.inbuf.take bufu ++ newbuf ++ s.inbuf.drop (bufu + newbuf.length)
    { s with inbuf := inbuf.take (inbuf.length - (count - newbuf.length)) }
  else s

def read (count : Nat) (s : WvEncoderStream ω κ) : WvEncoderStream ω κ × Str :=
  let s := fill v W close s
  let bufu := s.inbuf.length
  if bufu < s.queue_min then (maybe_autoclose close s, [])
  else if bufu = 0 then
    let (s, buf) := uread v W close count s
    (maybe_autoclose close s, buf)
  else
    let bufu := min bufu count
    let buf := s.inbuf.take bufu
    (maybe_autoclose close { s with inbuf := s.inbuf.drop bufu }, buf)

variable (wait : WvEncoderStream ω κ → WvEncoderStream ω κ × Bool)

/-- The bytes that may still be buffered; the difference is one of `size_t`. -/
def canbuffer (s : WvEncoderStream ω κ) : Nat :=
  (s.max_outbuf_size + 2 ^ 64 - s.outbuf.length) % 2 ^ 64

/-- How much of the rest `write` buffers. -/
def buffered (count : Nat) (s : WvEncoderStream ω κ) : Nat :=
  if s.max_outbuf_size ≠ 0 then min count s.canbuffer else count

def write (buf : Str) (s : WvEncoderStream ω κ) : WvEncoderStream ω κ × Nat :=
  if !s.isok W || buf.isEmpty || s.stop_write then (s, 0)
  else
    let (s, wrote) :=
      if !s.outbuf_delayed_flush && s.outbuf.isEmpty then uwrite v W close buf s else (s, 0)
    let count := buffered (buf.length - wrote) s
    let s := { s with outbuf := s.outbuf ++ (buf.drop wrote).take count }
    let s :=
      if s.want_to_flush then
        if s.is_auto_flush then (flush v W close wait 0 s).1 else (flush_outbuf v W close wait 0 s).1
      else s
    (s, wrote + count)

def pre_select (s : WvEncoderStream ω κ) : WvEncoderStream ω κ :=
  let s := maybe_autoclose close s
  if W.isok s.cloned then called W close { s with cloned := W.pre_select s.cloned } else s

/-- The part of `post_select` that is from `WvStreamClone`. -/
def clone_post_select (s : WvEncoderStream ω κ) : WvEncoderStream ω κ :=
  let s := if s.want_to_flush then (flush v W close wait 0 s).1 else s
  let s := if W.should_flush s.cloned then (flush v W close wait 0 s).1 else s
  if W.isok s.cloned then called W close { s with cloned := W.post_select s.cloned } else s

def post_select (readable : Bool) (s : WvEncoderStream ω κ) : WvEncoderStream ω κ :=
  let s := if readable && !s.readoutbuf.isEmpty then pull v W close 0 s else s
  clone_post_select v W close wait (push v W close false false s).1

def select (readable : Bool) (s : WvEncoderStream ω κ) : WvEncoderStream ω κ :=
  let s := pre_select W close s
  let answer := W.select s.cloned
  let s := called W close { s with cloned := answer.1 }
  match answer.2 with
  | .failed => seterr W close s
  | .interrupted => s
  | .well _ _ => post_select v W close wait readable s

end

variable (wait : WvEncoderStream ω κ → WvEncoderStream ω κ × Bool)

inductive Op where
  | write (buf : Str)
  | flush (msec_timeout : Int)
  | close
  | read (count : Nat)
  | select (readable : Bool)
  | noread
  | nowrite
  | queuemin (count : Nat)
  | min_readsize (size : Nat)
  | outbuf_limit (size : Nat)
  | delay_output (is_delayed : Bool)
  | auto_flush (is_automatic : Bool)

/-- A stream, the bytes that `write` has accepted, and those that `read` has returned. -/
structure Session (ω κ : Type) where
  stream : WvEncoderStream ω κ
  data : Str := []
  returned : Str := []

def Session.new (readers writers : List (WvEncoder ω)) (cloned : κ) : Session ω κ where
  stream := { readchain := .new readers, writechain := .new writers, cloned }

def Session.step (t : Session ω κ) : Op → Session ω κ × Str
  | .write buf =>
    let (stream, wrote) := t.stream.write v W (close v W wait) wait buf
    ({ t with stream, data := t.data ++ buf.take wrote }, [])
  | .flush msec_timeout =>
    ({ t with stream := (t.stream.flush v W (close v W wait) wait msec_timeout).1 }, [])
  | .close => ({ t with stream := t.stream.close v W wait }, [])
  | .read count =>
    let (stream, buf) := t.stream.read v W (close v W wait) count
    ({ t with stream, returned := t.returned ++ buf }, buf)
  | .select readable =>
    ({ t with stream := t.stream.select v W (close v W wait) wait readable }, [])
  | .noread =>
    ({ t with stream := t.stream.noread W (close v W wait) (called W (close v W wait)) }, [])
  | .nowrite =>
    ({ t with stream := t.stream.nowrite W (close v W wait) (called W (close v W wait)) }, [])
  | .queuemin count => ({ t with stream := { t.stream with queue_min := count } }, [])
  | .min_readsize size => ({ t with stream := { t.stream with min_readsize := size } }, [])
  | .outbuf_limit size => ({ t with stream := { t.stream with max_outbuf_size := size } }, [])
  | .delay_output is_delayed =>
    ({ t with stream := { t.stream with
      outbuf_delayed_flush := is_delayed, want_to_flush := !is_delayed } }, [])
  | .auto_flush is_automatic =>
    ({ t with stream := { t.stream with is_auto_flush := is_automatic } }, [])

def Session.run (t : Session ω κ) (ops : List Op) : Session ω κ :=
  ops.foldl (fun t op => (t.step v W wait op).1) t

end WvEncoderStream

end WvStreams
