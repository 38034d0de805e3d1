import WvStreams.Strings.CNumber

/-!
# `WvHttpStream`

Requests have been sent to a server, and `execute` reads one line or one piece of a body of its
responses in each call. The connection stays open, and a request has no `putstream`.
-/

namespace WvStreams

inductive Encoding where
  | Unknown
  | Chunked
  | ContentLength
  | Infinity
  | PostHeadInfinity
  | PostHeadChunked
  | PostHeadStream
  | ChuckInfinity
  | ChuckChunked
  | ChuckStream
  deriving DecidableEq

/-- The encodings of what may come after the response to a `HEAD` request. -/
def Encoding.PostHead : Encoding → Bool
  | PostHeadInfinity | PostHeadChunked | PostHeadStream => true
  | _ => false

structure WvHTTPHeader where
  name : Str
  value : Str

/-- `data` is what was written to the stream. -/
structure WvBufUrlStream where
  version : Str := []
  status : Int := 0
  headers : List WvHTTPHeader := []
  data : Str := []

/-- A new request has an `outstream`; none if it was closed, or the request is a pipeline test. -/
structure WvUrlRequest where
  method : Str
  pipeline_test : Bool := false
  inuse : Bool := false
  outstream : Option WvBufUrlStream := some {}

/-- `inbuf` is what has arrived and was not read, and `curl` is that the pointer is not null; it
is to the first of `urls` then. `finished` is a record of the requests that `doneurl` was called
for. -/
structure WvHttpStream where
  inbuf : Str := []
  closed : Bool := false
  errstr : WvString := none
  urls : List WvUrlRequest
  waiting_urls : List WvUrlRequest := []
  max_requests : Nat := 100
  request_count : Nat := 0
  curl : Bool := false
  enable_pipelining : Bool
  pipeline_incompatible : Bool := false
  expect_keep_alive : Bool := true
  pipeline_test_count : Nat := 0
  pipeline_test_response : Str := []
  last_was_pipeline_test : Bool := false
  sent_url_request : Bool := false
  http_response : Str := []
  encoding : Encoding := .Unknown
  bytes_remaining : Nat := 0
  in_chunk_trailer : Bool := false
  finished : List WvUrlRequest := []

namespace WvHttpStream

def send_request (s : WvHttpStream) : WvHttpStream :=
  { s with request_count := s.request_count + 1, sent_url_request := true }

def start_pipeline_test (s : WvHttpStream) : WvHttpStream :=
  let s := send_request s
  { s with urls := s.urls ++ [⟨bytes "HEAD", true, false, none⟩] }

def request_next (s : WvHttpStream) : WvHttpStream :=
  match s.waiting_urls with
  | [] => s
  | url :: waiting_urls =>
    -- don't do a request if we've done too many already, and not more than one at a time if
    -- we're not pipelining
    if s.max_requests ≤ s.request_count || (!s.enable_pipelining && !s.urls.isEmpty) then s
    else
      let s := { s with waiting_urls }
      let s := if s.enable_pipelining && s.request_count == 0 && 1 < s.max_requests
        then start_pipeline_test s else s
      let s := send_request s
      { s with urls := s.urls ++ [url] }

def pipelining_is_broken (s : WvHttpStream) : WvHttpStream := { s with pipeline_incompatible := true }

def close_idle (s : WvHttpStream) : WvHttpStream :=
  let s := if s.enable_pipelining && 1 < s.max_requests && (s.pipeline_test_count < 1 ||
    (s.pipeline_test_count == 1 && s.last_was_pipeline_test)) then pipelining_is_broken s else s
  { s with closed := true, waiting_urls := [] }

/-- What `doneurl` does after a pipeline test, and whether pipelining is broken. -/
def done_test (last_response : Str) (s : WvHttpStream) : WvHttpStream × Bool :=
  let s := { s with pipeline_test_count := s.pipeline_test_count + 1 }
  let (s, broken) :=
    if s.pipeline_test_count = 1 then (start_pipeline_test s, false)
    else if s.pipeline_test_response ≠ last_response then (pipelining_is_broken s, true)
    else (s, false)
  ({ s with pipeline_test_response := last_response }, broken)

/-- The fields that are for one response. -/
def reset (s : WvHttpStream) : WvHttpStream :=
  { s with
    http_response := [], encoding := .Unknown, in_chunk_trailer := false, bytes_remaining := 0 }

def doneurl (s : WvHttpStream) : WvHttpStream :=
  match s.urls with
  | [] => s
  | curl :: _ =>
    let last_response := s.http_response
    let s := { s.reset with last_was_pipeline_test := curl.pipeline_test }
    let (s, broken) := if curl.pipeline_test then done_test last_response s else (s, false)
    let s := { s with
      finished := s.finished ++ [curl]
      curl := false
      sent_url_request := false
      urls := s.urls.tail }
    request_next (if broken then close_idle s else s)

def close (s : WvHttpStream) : WvHttpStream :=
  let s := close_idle s
  if s.curl then doneurl s else s

/-- `seterr` while there are no requests. -/
def seterr (msg : Str) (s : WvHttpStream) : WvHttpStream :=
  close_idle { s with errstr := some msg }

/-- Something is done with the first request. -/
def at_first (f : WvUrlRequest → WvUrlRequest) (s : WvHttpStream) : WvHttpStream :=
  match s.urls with
  | [] => s
  | url :: urls => { s with urls := f url :: urls }

/-- Something is done with its `outstream`, if there is one. -/
def at_outstream (f : WvBufUrlStream → WvBufUrlStream) : WvHttpStream → WvHttpStream :=
  at_first fun url => { url with outstream := url.outstream.map f }

/-- `getline`, when the connection is open: the line, and what is behind it. -/
def getline (inbuf : Str) : Option (Str × Str) :=
  if 10 ∈ inbuf then
    some ((inbuf.takeWhile (· ≠ 10)).takeWhile (· ≠ 0), (inbuf.dropWhile (· ≠ 10)).drop 1)
  else none

/-- `read` with the bytes that were read written to the active request. -/
def read_data (len : Nat) (s : WvHttpStream) : WvHttpStream :=
  let buf := s.inbuf.take len
  at_outstream (fun o => { o with data := o.data ++ buf }) { s with inbuf := s.inbuf.drop len }

/-- What is looked at in the lines that frame the body. -/
def frame (line : Str) (s : WvHttpStream) : WvHttpStream :=
  if strncasecmp line (bytes "Content-length: ") 16 then
    { s with bytes_remaining := size_of_int (atoi (line.drop 16)), encoding := .ContentLength }
  else if strncasecmp line (bytes "Transfer-Encoding: ") 19 &&
    strstr (line.drop 19) (bytes "chunked") then { s with encoding := .Chunked }
  else if strncasecmp line (bytes "Connection: keep-alive") 22 then { s with expect_keep_alive := true }
  else if strncasecmp line (bytes "Connection: close") 17 then { s with expect_keep_alive := false }
  else s

def keep_header (line : Str) (o : WvBufUrlStream) : WvBufUrlStream :=
  if 58 ∈ line then
    { o with headers := o.headers ++
      [⟨line.takeWhile (· ≠ 58), trimString ((line.dropWhile (· ≠ 58)).drop 1)⟩] }
  else if strncasecmp line (bytes "HTTP/") 5 && 32 ∈ line then
    { o with
      version := (line.takeWhile (· ≠ 32)).drop 5
      status := atoi ((line.dropWhile (· ≠ 32)).drop 1) }
  else o

/-- A blank line is the beginning of the data section. -/
def start_data (s : WvHttpStream) : WvHttpStream :=
  let s := { s with curl := true, in_chunk_trailer := false }
  let s := if s.encoding = .Unknown then { s with encoding := .Infinity } else s
  match s.urls with
  | [] => s
  | curl :: _ =>
    if curl.method = bytes "HEAD" then
      if bytes "HTTP/1.0" <+: s.http_response then
        { s with encoding :=
          if s.encoding = .Infinity then .PostHeadInfinity
          else if s.encoding = .Chunked then .PostHeadChunked
          else .PostHeadStream }
      else doneurl s
    else s

/-- The first line behind the response to a pipeline test is like that response, or the server
did not understand the request: what is between has been lost. -/
def is_lost (line : Str) (s : WvHttpStream) : Bool :=
  s.last_was_pipeline_test && (line == s.pipeline_test_response ||
    (32 ∈ line && atoi ((line.dropWhile (· ≠ 32)).drop 1) == 400))

/-- The first line of the section, and whether pipelining is broken. -/
def set_response (line : Str) (s : WvHttpStream) : WvHttpStream × Bool :=
  if s.http_response = [] then
    ({ s with
      http_response := line, expect_keep_alive := decide (¬ bytes "HTTP/1.0" <+: line) },
      s.is_lost line)
  else (s, false)

/-- A line of the header section, without the blanks around it. -/
def header_line (line : Str) (s : WvHttpStream) : WvHttpStream :=
  let (s, broken) := set_response line s
  if broken then close (pipelining_is_broken s)
  else if s.urls.isEmpty then seterr (bytes "unsolicited data from server!") s
  else
    let s := frame line s
    if line = [] then start_data s else at_outstream (keep_header line) s

def chunk_line (line : Str) (s : WvHttpStream) : WvHttpStream :=
  if s.in_chunk_trailer then
    -- a blank line means we're finally done!
    if line = [] then doneurl s else s
  else if line = [] then s
  else
    let bytes_remaining := strtoul line
    { s with bytes_remaining, in_chunk_trailer := decide (bytes_remaining = 0) }

/-- Some of the `bytes_remaining` are read. -/
def data_section (s : WvHttpStream) : WvHttpStream :=
  let len := min (if 1024 < s.bytes_remaining then 1024 else s.bytes_remaining) s.inbuf.length
  let s := read_data len s
  let s := { s with bytes_remaining := s.bytes_remaining - len }
  if s.bytes_remaining = 0 && s.encoding = .ContentLength then doneurl s else s

/-- A line is read, if all of it has arrived, and something is done with it. -/
def with_line (f : Str → WvHttpStream → WvHttpStream) (s : WvHttpStream) : WvHttpStream :=
  match getline s.inbuf with
  | none => s
  | some (line, inbuf) => f (trimString line) { s with inbuf }

/-- Die if somebody closed our outstream. -/
def die (s : WvHttpStream) : WvHttpStream :=
  let s := if s.encoding.PostHead then s
    else close { s with
      pipeline_test_count := s.pipeline_test_count + 1, last_was_pipeline_test := false }
  if s.curl then doneurl s else s

/-- What `execute` does in the data section. After a response to `HEAD` this is `post_head`; a
response to `GET` does not come to it. -/
def body_section (post_head : WvHttpStream → WvHttpStream) (s : WvHttpStream) : WvHttpStream :=
  match s.encoding with
  | .Chunked => if s.bytes_remaining = 0 then with_line chunk_line s else data_section s
  | .Infinity => read_data 1024 s
  | .ContentLength | .Unknown => data_section s
  | _ => post_head s

/-- One call of `execute`, when some more bytes have arrived. -/
def execute (post_head : WvHttpStream → WvHttpStream) (arrived : Str) (s : WvHttpStream) :
    WvHttpStream :=
  if s.closed then s
  else
    let s := { s with inbuf := s.inbuf ++ arrived }
    if s.curl then
      if s.urls.head?.all fun curl => curl.outstream.isNone then die s
      else body_section post_head (at_first (fun curl => { curl with inuse := true }) s)
    else with_line header_line s

def run (post_head : WvHttpStream → WvHttpStream) (s : WvHttpStream) (arrivals : List Str) :
    WvHttpStream :=
  arrivals.foldl (fun s arrived => s.execute post_head arrived) s

end WvHttpStream

end WvStreams
