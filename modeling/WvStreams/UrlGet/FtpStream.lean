import WvStreams.Strings.WvString

/-!
# `WvFtpStream`

The transfers of files. The user is logged in, and the server refuses `CWD` to the name of a file
and answers the other commands as it should, so that a request starts with an open data connection.
`execute` then copies what its source has at the moment. A download goes on in the next call if the
data connection is still open. The content source of an upload is closed after one turn.
-/

namespace WvStreams

/-- What happens to a stream until it is asked the next time: how many bytes become available,
and whether the end of file does. It may say that it is readable without reason, and a read may
give fewer bytes than there are. -/
structure Moment where
  more : Nat := 0
  ended : Bool := false
  ready : Bool := false
  most : Option Nat := none

/-- A stream with what comes in and what was written to it. `inbuf` is its buffer, `rest` is what
`uread` will deliver, of which the first `arrived` bytes are available, and `ended` is that the end
of file is. The `queue_min` of these streams is zero, and they have no limit for the output. -/
structure Pipe where
  inbuf : Str := []
  rest : Str := []
  arrived : Nat := 0
  ended : Bool := false
  closed : Bool := false
  stop_write : Bool := false
  given : Str := []
  moments : List Moment := []

namespace Pipe

def isok (s : Pipe) : Bool := !s.closed

/-- What happens now; nothing does at the end of the list. -/
def now (s : Pipe) : Moment := s.moments.headD {}

def pass (s : Pipe) : Pipe :=
  { s with
    moments := s.moments.tail
    ended := s.ended || s.now.ended
    arrived :=
      if s.ended || s.now.ended then s.rest.length
      else min (s.arrived + s.now.more) s.rest.length }

def isreadable (s : Pipe) : Pipe × Bool :=
  (s.pass, s.isok &&
    (s.inbuf != [] || s.pass.arrived != 0 || s.pass.ended || s.now.ready))

/-- Nothing at the end of file closes the stream, and nothing otherwise is an interrupted read. -/
def uread (most : Option Nat) (count : Nat) (s : Pipe) : Pipe × Str :=
  if !s.isok then (s, [])
  else
    let n := min count (min s.arrived (most.getD s.arrived))
    if n = 0 then
      ({ s with closed := s.ended && s.arrived == 0 && most != some 0 }, [])
    else ({ s with rest := s.rest.drop n, arrived := s.arrived - n }, s.rest.take n)

def read (count : Nat) (s : Pipe) : Pipe × Str :=
  if s.inbuf = [] then uread s.now.most count s.pass
  else ({ s.pass with inbuf := s.inbuf.drop count }, s.inbuf.take count)

def write (buf : Str) (s : Pipe) : Pipe :=
  if !s.isok || buf.isEmpty || s.stop_write then s else { s with given := s.given ++ buf }

def writeSome (buf : Str) (s : Pipe) : Pipe := if buf.length ≠ 0 then s.write buf else s

def close (s : Pipe) : Pipe := { s with closed := true }

end Pipe

namespace WvFtpStream

/-- A request for a file. `content_source` is what `putstream` was when the request was made, and
`remote` is the data connection that the server will open for it. -/
structure Request where
  content_source : Option Pipe
  putstream : Option Pipe
  outstream : Pipe
  remote : Pipe

/-- A request for which `doneurl` was called, with the data connection. -/
structure Done where
  request : Request
  data : Pipe

end WvFtpStream

/-- `curl` is that the pointer is not null; it is to the first of `urls` then. `finished` is a
record of the calls of `doneurl`. -/
structure WvFtpStream where
  urls : List WvFtpStream.Request := []
  waiting_urls : List WvFtpStream.Request := []
  max_requests : Nat := 100
  request_count : Nat := 0
  curl : Bool := false
  data : Option Pipe := none
  closed : Bool := false
  finished : List WvFtpStream.Done := []

namespace Pipe

/-- An upper bound of the turns of a loop that reads the stream. -/
def work (s : Pipe) : Nat :=
  s.moments.length + s.inbuf.length + s.rest.length + (!s.closed).toNat

@[simp] theorem pass_inbuf (s : Pipe) : s.pass.inbuf = s.inbuf := rfl
@[simp] theorem pass_rest (s : Pipe) : s.pass.rest = s.rest := rfl
@[simp] theorem pass_closed (s : Pipe) : s.pass.closed = s.closed := rfl

theorem pass_arrived_le (s : Pipe) : s.pass.arrived ≤ s.rest.length := by
  simp only [pass]
  split
  · exact Nat.le_refl _
  · exact Nat.min_le_right _ _

theorem work_pass (s : Pipe) : s.pass.work ≤ s.work := by
  have hmoments : s.pass.moments.length ≤ s.moments.length := by
    simp [pass]
  simp only [work, pass_inbuf, pass_rest, pass_closed]
  omega

theorem work_uread (most : Option Nat) (count : Nat) (s : Pipe) :
    (uread most count s).1.work ≤ s.work := by
  unfold uread
  split
  · exact Nat.le_refl _
  · next hok =>
    have hopen : s.closed = false := by simpa [isok] using hok
    dsimp only
    split
    · simp only [work, hopen, Bool.not_false, Bool.toNat_true]
      have hle := Bool.toNat_le (!(s.ended && s.arrived == 0 && most != some 0))
      omega
    · simp only [work, List.length_drop]
      omega

theorem work_read (count : Nat) (s : Pipe) : (s.read count).1.work ≤ s.work := by
  unfold read
  split
  · exact (work_uread _ _ _).trans s.work_pass
  · refine le_trans ?_ s.work_pass
    simp only [work, pass_inbuf, List.length_drop]
    omega

theorem pass_pass {s : Pipe} (h : s.moments = []) : s.pass.pass = s.pass := by
  cases hended : s.ended <;> simp [pass, now, h, hended]

theorem work_lt {s : Pipe} (h : s.isreadable.2 = true) :
    (s.isreadable.1.read 1024).1.work < s.work := by
  have hread := s.pass.work_read 1024
  rcases hmoments : s.moments with _ | ⟨m, moments⟩
  · have hnow : s.now = {} := by simp [now, hmoments]
    have hmost : s.pass.now.most = none := by simp [now, pass, hmoments]
    have harrived := s.pass_arrived_le
    simp only [isreadable, isok, hnow, Bool.or_false, Bool.and_eq_true, Bool.or_eq_true,
      Bool.not_eq_true', bne_iff_ne] at h
    obtain ⟨hopen, hready⟩ := h
    by_cases hinbuf : s.inbuf = []
    · have hr : s.isreadable.1.read 1024 = uread none 1024 s.pass := by
        rw [isreadable, read, pass_inbuf, if_pos hinbuf, hmost, pass_pass hmoments]
      have hpass := s.work_pass
      rw [hr, uread, if_neg (by simp [isok, hopen])]
      by_cases hzero : s.pass.arrived = 0
      · have hended : s.pass.ended = true := by
          rcases hready with (hready | hready) | hready
          · exact absurd hinbuf hready
          · exact absurd hzero hready
          · exact hready
        have hfull : ((none : Option Nat) != some 0) = true := rfl
        simp [hzero, hended, hfull, work, hopen] at hpass ⊢
        omega
      · simp [hzero, work, hopen] at hpass ⊢
        omega
    · have hlen := List.length_pos_iff.mpr hinbuf
      rw [isreadable, read, pass_inbuf, if_neg hinbuf]
      have hpass := s.pass.work_pass
      have hpass' := s.work_pass
      simp only [work, pass_inbuf, pass_rest, pass_closed, List.length_drop] at hpass hpass' ⊢
      omega
  · have hpass : s.pass.work < s.work := by
      simp [work, pass, hmoments]
    exact Nat.lt_of_le_of_lt hread hpass

end Pipe

/-- The loops of `real_execute`: what can be read is written to the other stream. The one of a
download also stops when the `outstream` is closed. -/
def copyLoop (download : Bool) (source dest : Pipe) : Pipe × Pipe :=
  if _h : (source.isreadable.2 && (!download || dest.isok)) = true then
    copyLoop download (source.isreadable.1.read 1024).1
      (dest.writeSome (source.isreadable.1.read 1024).2)
  else (source.isreadable.1, dest)
termination_by source.work
decreasing_by exact Pipe.work_lt (Bool.and_eq_true_iff.mp _h).1

namespace WvFtpStream

def request_next (s : WvFtpStream) : WvFtpStream :=
  match s.waiting_urls with
  | [] => s
  | url :: waiting_urls =>
    if s.max_requests ≤ s.request_count then s
    else if !s.urls.isEmpty then s
    else
      { s with
        waiting_urls := waiting_urls
        request_count := s.request_count + 1
        urls := [url] }

/-- `addurl` for a url that is ok. -/
def addurl (url : Request) (s : WvFtpStream) : WvFtpStream :=
  request_next { s with waiting_urls := s.waiting_urls ++ [url] }

def close (s : WvFtpStream) : WvFtpStream := { s with closed := true, curl := false }

/-- `doneurl` for the first request, as it is now, and its data connection. -/
def doneurl (url : Request) (data : Pipe) (s : WvFtpStream) : WvFtpStream :=
  let s := request_next
    { s with
      finished := s.finished ++ [⟨url, data⟩]
      curl := false
      data := none
      urls := s.urls.tail }
  if s.urls.isEmpty && s.waiting_urls.isEmpty then s.close else s

/-- The commands for the first request are given, if it is a new one. -/
def start (s : WvFtpStream) : WvFtpStream :=
  match s.urls with
  | [] => s
  | url :: _ => if s.curl then s else { s with curl := true, data := some url.remote }

/-- The part of `real_execute` for a request that is under way. -/
def transfer (url : Request) (data : Pipe) (s : WvFtpStream) : WvFtpStream :=
  match url.putstream with
  | some putstream =>
    let (putstream, data) := copyLoop false putstream data
    let putstream := putstream.close
    let url := { url with putstream := some putstream }
    let s := { s with urls := url :: s.urls.tail, data := some data }
    if !data.isok || !putstream.isok then
      doneurl url (if data.isok then data.close else data) s
    else s
  | none =>
    let (data, outstream) := copyLoop true data url.outstream
    let url := { url with outstream := outstream }
    let s := { s with urls := url :: s.urls.tail, data := some data }
    if !data.isok then doneurl url data s else s

/-- `timed_out` is that the alarm has rung and the last request is a minute ago. -/
def execute (timed_out : Bool) (s : WvFtpStream) : WvFtpStream :=
  if timed_out then (if s.urls.isEmpty then s.close else s)
  else
    let s := s.start
    match s.curl, s.urls, s.data with
    | true, url :: _, some data => transfer url data s
    | _, _, _ => s

inductive Call where
  | addurl (url : Request)
  | execute (timed_out : Bool)

def call (s : WvFtpStream) : Call → WvFtpStream
  | .addurl url => s.addurl url
  | .execute timed_out => s.execute timed_out

end WvFtpStream

end WvStreams
