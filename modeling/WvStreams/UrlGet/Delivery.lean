import WvStreams.UrlGet.HeaderSection

/-!
# What the requests receive

`Awaits` is how far a response has been read, and what the fields say then. `Serves` is that of the
whole connection: an exchange is a request that was sent and the response to it.
-/

namespace WvStreams

open List Option

open HeaderField

open WvUrlRequest

def WvUrlRequest.received (url : WvUrlRequest) : Option Str := url.outstream.map WvBufUrlStream.data

/-- A `GET` request whose `outstream` was not closed. -/
structure WvUrlRequest.IsGet (url : WvUrlRequest) : Prop where
  method : url.method = bytes "GET"
  no_test : url.pipeline_test = false
  isSome : url.outstream.isSome = true

/-- A request and the response to it. -/
structure Exchange where
  request : WvUrlRequest
  response : Response

def Exchange.received (x : Exchange) : Option Str := x.request.received.map (· ++ x.response.body)

/-- The request, when it has received some of the body. -/
structure Gets (request : WvUrlRequest) (got : Str) (url : WvUrlRequest) : Prop
    extends url.IsGet where
  received : url.received = request.received.map (· ++ got)

namespace WvHttpStream

/-- The stream waits for a header section. -/
structure Ready (s : WvHttpStream) : Prop where
  isopen : s.closed = false
  curl : s.curl = false
  http_response : s.http_response = []
  encoding : s.encoding = .Unknown
  bytes_remaining : s.bytes_remaining = 0

/-- What of a response has not been read, and what of its body was delivered. -/
inductive Awaits (r : Response) (s : WvHttpStream) : Str → Str → Prop
  | status (hcurl : s.curl = false) (hresponse : s.http_response = [])
      (hlost : s.is_lost (trimString r.status) = false) (hcoming : Coming s r.headers r.framing) :
      Awaits r s r.bytes []
  | headers (left : List HeaderField) (hcurl : s.curl = false) (hresponse : s.http_response ≠ [])
      (hcoming : Coming s left r.framing) :
      Awaits r s (lines (left.map HeaderField.line) ++ crlf ++ r.framing.bytes) []
  | length (left got : Str) (hcurl : s.curl = true) (hencoding : s.encoding = .ContentLength)
      (hremaining : s.bytes_remaining = left.length) (hframing : r.framing = .length (got ++ left)) :
      Awaits r s left got
  | chunks (b : ChunkedBody) (cs : List Chunk) (got : Str) (hcurl : s.curl = true)
      (hencoding : s.encoding = .Chunked) (hremaining : s.bytes_remaining = 0)
      (htrailer : s.in_chunk_trailer = false) (hframing : r.framing = .chunked b)
      (hsizes : ∀ c ∈ cs, c.data.length < 2 ^ 64) (hgot : got ++ cs.flatMap Chunk.data = b.data) :
      Awaits r s (cs.flatMap Chunk.bytes ++ b.ending) got
  | chunk (b : ChunkedBody) (left : Str) (cs : List Chunk) (got : Str) (hcurl : s.curl = true)
      (hencoding : s.encoding = .Chunked) (hremaining : s.bytes_remaining = left.length)
      (htrailer : s.in_chunk_trailer = false) (hframing : r.framing = .chunked b)
      (hsizes : ∀ c ∈ cs, c.data.length < 2 ^ 64)
      (hgot : got ++ left ++ cs.flatMap Chunk.data = b.data) :
      Awaits r s (left ++ crlf ++ (cs.flatMap Chunk.bytes ++ b.ending)) got
  | trailer (b : ChunkedBody) (left : List HeaderField) (hcurl : s.curl = true)
      (hencoding : s.encoding = .Chunked) (hremaining : s.bytes_remaining = 0)
      (htrailer : s.in_chunk_trailer = true) (hframing : r.framing = .chunked b) :
      Awaits r s (lines (left.map HeaderField.line) ++ crlf) b.data

/-- The first exchange is not over. Behind the requests there may be others. -/
structure Active (x : Exchange) (xs : List Exchange) (got : Str) (s : WvHttpStream) : Prop where
  isopen : s.closed = false
  urls : ∃ url more, s.urls = url :: (xs.map Exchange.request ++ more) ∧ Gets x.request got url
  others : ∀ x ∈ xs, x.request.IsGet ∧ x.response.Clear

/-- The exchanges that are not over, when some bytes are still to come. -/
inductive Serves (later : Str) (s : WvHttpStream) : List Exchange → Prop
  | idle (hready : s.Ready) (hinput : s.inbuf ++ later = []) : Serves later s []
  | active {x : Exchange} {xs : List Exchange} {rest got : Str} (hactive : Active x xs got s)
      (hawaits : Awaits x.response s rest got)
      (hinput : s.inbuf ++ later = rest ++ xs.flatMap fun x => x.response.bytes) :
      Serves later s (x :: xs)

/-- An upper bound of the calls of `execute` that find something to do. -/
def work (s : WvHttpStream) : Nat :=
  s.inbuf.length + if s.curl && s.encoding = .ContentLength && s.bytes_remaining = 0 then 1 else 0

inductive Steps (later : Str) (s s' : WvHttpStream) : List Exchange → List Exchange → Prop
  | stays {xs : List Exchange} (hserves : Serves later s' xs) (hfinished : s'.finished = s.finished) :
      Steps later s s' xs xs
  | answers {x : Exchange} {xs : List Exchange} (hserves : Serves later s' xs)
      (hfinished : s'.finished.map WvUrlRequest.received =
        s.finished.map WvUrlRequest.received ++ [x.received]) : Steps later s s' (x :: xs) xs

/-! ## Requests -/

theorem request_next_spec (s : WvHttpStream) : ∃ more waiting_urls request_count sent_url_request,
    request_next s =
      { s with urls := s.urls ++ more, waiting_urls, request_count, sent_url_request } := by
  have hsame : ∃ more waiting_urls request_count sent_url_request, s =
      { s with urls := s.urls ++ more, waiting_urls, request_count, sent_url_request } :=
    ⟨[], s.waiting_urls, s.request_count, s.sent_url_request, by rw [append_nil]⟩
  rw [request_next]
  split
  · exact hsame
  · rename_i url waiting_urls _
    split
    · exact hsame
    · dsimp only
      split
      · refine ⟨[⟨bytes "HEAD", true, false, none⟩, url], waiting_urls, s.request_count + 1 + 1, true, ?_⟩
        simp only [start_pipeline_test, send_request, append_assoc, singleton_append]
      · exact ⟨[url], waiting_urls, s.request_count + 1, true, rfl⟩

variable {s : WvHttpStream} {later : Str} {x : Exchange} {xs : List Exchange} {got rest : Str}

theorem doneurl_spec (hactive : Active x xs x.response.body s)
    (hinput : s.inbuf ++ later = xs.flatMap fun x => x.response.bytes) :
    Steps later s (doneurl s) (x :: xs) xs ∧ (doneurl s).work = s.inbuf.length := by
  obtain ⟨hopen, ⟨url, more, hurls, hgets⟩, hxs⟩ := hactive
  obtain ⟨more', waiting_urls, request_count, sent_url_request, hnext⟩ := request_next_spec
    { s.reset with
      last_was_pipeline_test := false
      finished := s.finished ++ [url]
      curl := false
      sent_url_request := false
      urls := xs.map Exchange.request ++ more }
  have hdone : doneurl s = { s.reset with
      last_was_pipeline_test := false
      finished := s.finished ++ [url]
      curl := false
      urls := xs.map Exchange.request ++ more ++ more'
      waiting_urls, request_count, sent_url_request } := by
    rw [doneurl, hurls]
    dsimp only
    rw [hgets.no_test, if_neg Bool.false_ne_true, if_neg Bool.false_ne_true]
    rw [reset, hurls]
    exact hnext
  rw [hdone]
  refine ⟨.answers ?_ ?_, rfl⟩
  · cases xs with
    | nil => exact .idle ⟨hopen, rfl, rfl, rfl, rfl⟩ hinput
    | cons x' xs =>
      obtain ⟨hget, hclear⟩ := hxs x' mem_cons_self
      refine .active ⟨hopen, ⟨x'.request, more ++ more', ?_, hget, ?_⟩,
        fun x hx => hxs x (mem_cons_of_mem x' hx)⟩ (.status rfl rfl rfl (hclear.coming rfl)) hinput
      · simp only [map_cons, cons_append, append_assoc]
      · cases x'.request.received with
        | none => rfl
        | some data => exact congrArg some (append_nil data).symm
  · dsimp only [reset]
    rw [map_append, map_singleton, hgets.received]
    rfl

theorem Active.congr (h : Active x xs got s) {r : WvHttpStream} (hclosed : r.closed = s.closed)
    (hurls : r.urls = s.urls) : Active x xs got r where
  isopen := hclosed.trans h.isopen
  urls := by
    rw [hurls]
    exact h.urls
  others := h.others

theorem Active.at_outstream (h : Active x xs got s) {f : WvBufUrlStream → WvBufUrlStream} {buf : Str}
    (hf : ∀ o, (f o).data = o.data ++ buf) :
    ∃ urls, at_outstream f s = { s with urls } ∧ Active x xs (got ++ buf) { s with urls } := by
  obtain ⟨hopen, ⟨url, more, hurls, hgets⟩, hxs⟩ := h
  refine ⟨{ url with outstream := url.outstream.map f } :: (xs.map Exchange.request ++ more),
    by rw [WvHttpStream.at_outstream, at_first, hurls], hopen, ⟨_, more, rfl, ?_⟩, hxs⟩
  refine ⟨⟨hgets.method, hgets.no_test, ?_⟩, ?_⟩
  · rw [isSome_map]
    exact hgets.isSome
  · have hreceived := hgets.received
    rw [received] at hreceived ⊢
    obtain ⟨o, ho⟩ := isSome_iff_exists.mp hgets.isSome
    rw [ho, map_some] at hreceived
    rw [ho, map_some, map_some, hf]
    cases hrequest : x.request.received with
    | none =>
      rw [hrequest] at hreceived
      exact absurd hreceived (some_ne_none _)
    | some data =>
      rw [hrequest, map_some] at hreceived
      rw [map_some, some.inj hreceived, append_assoc]

/-- `execute` keeps what is served, and when everything has arrived, it finds something to do. -/
def Advances (later : Str) (s s' : WvHttpStream) (xs : List Exchange) : Prop :=
  (∃ xs', Steps later s s' xs xs') ∧ (later = [] → s'.work < s.work)

theorem work_le (s : WvHttpStream) : s.work ≤ s.inbuf.length + 1 := by
  rw [work]
  split <;> omega

theorem le_work (s : WvHttpStream) : s.inbuf.length ≤ s.work := Nat.le_add_right _ _

theorem line_advances {f : Str → WvHttpStream → WvHttpStream} {l : Str} (rest : Str) (hl : IsText l)
    (hserves : Serves later s xs) (hinput : s.inbuf ++ later = l ++ crlf ++ rest)
    (hnext : ∀ inbuf, inbuf ++ later = rest →
      (∃ xs', Steps later s (f (trimString l) { s with inbuf }) xs xs') ∧
        (f (trimString l) { s with inbuf }).work ≤ inbuf.length + 1) :
    Advances later s (with_line f s) xs := by
  rcases with_line_cases f hl hinput with ⟨hsame, hlater⟩ | ⟨inbuf, hread, hrest, hlength⟩
  · rw [hsame]
    exact ⟨⟨xs, .stays hserves rfl⟩, fun hnil => absurd hnil hlater⟩
  · obtain ⟨hsteps, hle⟩ := hnext inbuf hrest
    rw [hread]
    refine ⟨hsteps, fun _ => ?_⟩
    have hle' := le_work s
    omega

/-! ## The header section -/

theorem frame_of_http {line w : Str} (h : line = 72 :: w) (s : WvHttpStream) : s.frame line = s := by
  have hcmp : ∀ (c : Byte) (t : Str) (n : Nat), tolower c ≠ 104 →
      strncasecmp line (c :: t) (n + 1) = false := by
    intro c t n hc
    rw [h, strncasecmp, take_succ_cons, take_succ_cons, map_cons, map_cons, beq_eq_false_iff_ne]
    exact fun heq => hc (head_eq_of_cons_eq heq).symm
  have hlength : strncasecmp line (bytes "Content-length: ") 16 = false := hcmp _ _ _ (by decide)
  have hchunked : strncasecmp line (bytes "Transfer-Encoding: ") 19 = false :=
    hcmp _ _ _ (by decide)
  have hkeep : strncasecmp line (bytes "Connection: keep-alive") 22 = false := hcmp _ _ _ (by decide)
  have hclose : strncasecmp line (bytes "Connection: close") 17 = false := hcmp _ _ _ (by decide)
  rw [frame, hlength, hchunked, hkeep, hclose]
  rfl

theorem trimString_status (r : Response) : ∃ w, trimString r.status = 72 :: w := by
  obtain ⟨w, hw⟩ := r.status_http
  have hstatus : r.status = bytes "HTTP/1.1" ++ 32 :: w := by
    rw [← hw, show bytes "HTTP/1.1 " = bytes "HTTP/1.1" ++ [32] from rfl, append_assoc]
    rfl
  rw [hstatus, trimString_append (by decide) ⟨by decide, by decide⟩]
  exact ⟨_, rfl⟩

theorem frame_spec (line : Str) (s : WvHttpStream) :
    ∃ bytes_remaining encoding expect_keep_alive,
      s.frame line = { s with bytes_remaining, encoding, expect_keep_alive } := by
  rw [frame]
  split
  · exact ⟨_, _, s.expect_keep_alive, rfl⟩
  split
  · exact ⟨s.bytes_remaining, _, s.expect_keep_alive, rfl⟩
  split
  · exact ⟨s.bytes_remaining, s.encoding, _, rfl⟩
  split
  · exact ⟨s.bytes_remaining, s.encoding, _, rfl⟩
  · exact ⟨s.bytes_remaining, s.encoding, s.expect_keep_alive, rfl⟩

theorem data_keep_header (line : Str) (o : WvBufUrlStream) :
    (keep_header line o).data = o.data ++ [] := by
  rw [keep_header, append_nil]
  split
  · rfl
  split
  · rfl
  · rfl

theorem header_line_spec (hactive : Active x xs got s) {line : Str} (hne : line ≠ [])
    (hlost : (set_response line s).2 = false) :
    ∃ urls, header_line line s = { (set_response line s).1.frame line with urls } ∧
      Active x xs got { (set_response line s).1.frame line with urls } := by
  have hresponse : Active x xs got (set_response line s).1 := by
    rw [set_response]
    split
    · exact hactive.congr rfl rfl
    · exact hactive
  rw [header_line]
  generalize set_response line s = p at hresponse hlost ⊢
  obtain ⟨r, broken⟩ := p
  obtain rfl : broken = false := hlost
  dsimp only at hresponse ⊢
  have hurls : ¬ r.urls.isEmpty = true := by
    obtain ⟨url, more, hurls, -⟩ := hresponse.urls
    rw [hurls]
    exact Bool.false_ne_true
  rw [if_neg Bool.false_ne_true, if_neg hurls, if_neg hne]
  obtain ⟨bytes_remaining, encoding, expect_keep_alive, hframe⟩ := frame_spec line r
  have hframed : Active x xs got (r.frame line) := by
    rw [hframe]
    exact hresponse.congr rfl rfl
  obtain ⟨urls, hwrite, hwritten⟩ := hframed.at_outstream (data_keep_header line)
  rw [append_nil] at hwritten
  exact ⟨urls, hwrite, hwritten⟩

theorem lines_cons (l : Str) (ls : List Str) (rest : Str) :
    lines (l :: ls) ++ rest = l ++ crlf ++ (lines ls ++ rest) := by
  rw [lines, flatMap_cons, ← lines]
  simp only [append_assoc]

theorem status_advances (hactive : Active x xs [] s) (hcurl : s.curl = false)
    (hresponse : s.http_response = []) (hlost : s.is_lost (trimString x.response.status) = false)
    (hcoming : Coming s x.response.headers x.response.framing)
    (hinput : s.inbuf ++ later = x.response.bytes ++ xs.flatMap fun x => x.response.bytes) :
    Advances later s (with_line header_line s) (x :: xs) := by
  have hline : s.inbuf ++ later = x.response.status ++ crlf ++
      (lines (x.response.headers.map line) ++ crlf ++ x.response.framing.bytes ++
        xs.flatMap fun x => x.response.bytes) := by
    rw [hinput, Response.bytes, append_assoc, lines_cons]
    simp only [append_assoc]
  refine line_advances _ x.response.status_text
    (.active hactive (.status hcurl hresponse hlost hcoming) hinput) hline fun inbuf hrest => ?_
  obtain ⟨w, hw⟩ := trimString_status x.response
  have hne : trimString x.response.status ≠ [] := by
    rw [hw]
    exact cons_ne_nil _ _
  have hset : set_response (trimString x.response.status) { s with inbuf } =
      ({ s with
        inbuf, http_response := trimString x.response.status
        expect_keep_alive := decide (¬ bytes "HTTP/1.0" <+: trimString x.response.status) },
      false) := by
    rw [set_response, if_pos hresponse]
    exact congrArg (Prod.mk _) hlost
  obtain ⟨urls, hheader, hactive'⟩ := header_line_spec
    (hactive.congr (r := { s with inbuf }) rfl rfl) hne (by rw [hset])
  rw [hset, frame_of_http hw] at hheader hactive'
  rw [hheader]
  refine ⟨⟨_, .stays (.active hactive' (.headers x.response.headers hcurl hne
    (hcoming.congr rfl rfl)) ?_) rfl⟩, work_le _⟩
  exact hrest

theorem header_line_nil (hactive : Active x xs got s) (hresponse : s.http_response ≠ [])
    (hencoding : s.encoding ≠ .Unknown) :
    header_line [] s = { s with curl := true, in_chunk_trailer := false } := by
  obtain ⟨url, more, hurls, hgets⟩ := hactive.urls
  have hset : set_response [] s = (s, false) := if_neg hresponse
  have hsome : ¬ s.urls.isEmpty = true := by
    rw [hurls]
    exact Bool.false_ne_true
  have hget : url.method ≠ bytes "HEAD" := by
    rw [hgets.method]
    decide
  have hframe : s.frame [] = s := rfl
  rw [header_line, hset]
  dsimp only
  rw [if_neg Bool.false_ne_true, if_neg hsome, hframe, if_pos rfl, start_data]
  rw [if_neg hencoding]
  rw [hurls]
  exact if_neg hget

theorem awaits_body {r : Response} (h : Coming s [] r.framing) (hcurl : s.curl = true)
    (htrailer : s.in_chunk_trailer = false) : Awaits r s r.framing.bytes [] := by
  generalize hframing : r.framing = framing at h
  cases h with
  | @length data _ _ _ hset =>
    rcases hset with ⟨_, hmem, -⟩ | ⟨hencoding, hremaining⟩
    · exact absurd hmem not_mem_nil
    · exact .length data [] hcurl hencoding hremaining hframing
  | @chunked b hsizes _ hzero hset =>
    rcases hset with ⟨front, te, back, heq, -⟩ | ⟨hencoding, -⟩
    · exact absurd heq (by simp)
    · exact .chunks b b.chunks [] hcurl hencoding hzero htrailer hframing hsizes rfl

theorem headers_advances {left : List HeaderField} (hactive : Active x xs [] s)
    (hcurl : s.curl = false) (hresponse : s.http_response ≠ [])
    (hcoming : Coming s left x.response.framing)
    (hinput : s.inbuf ++ later = lines (left.map line) ++ crlf ++
      x.response.framing.bytes ++ xs.flatMap fun x => x.response.bytes) :
    Advances later s (with_line header_line s) (x :: xs) := by
  have hserves : Serves later s (x :: xs) :=
    .active hactive (.headers left hcurl hresponse hcoming) hinput
  have hset : ∀ line inbuf, set_response line { s with inbuf } = ({ s with inbuf }, false) :=
    fun line inbuf => if_neg hresponse
  cases left with
  | nil =>
    refine line_advances (l := []) (x.response.framing.bytes ++ xs.flatMap fun x => x.response.bytes)
      nofun hserves ?_ fun inbuf hrest => ?_
    · rw [hinput]
      simp only [lines, map_nil, flatMap_nil, nil_append, append_assoc]
    rw [show trimString [] = [] from rfl, header_line_nil
      (hactive.congr (r := { s with inbuf }) rfl rfl) hresponse hcoming.encoding_ne]
    refine ⟨⟨_, .stays (.active (hactive.congr rfl rfl)
      (awaits_body (hcoming.congr rfl rfl) rfl rfl) hrest) rfl⟩, work_le _⟩
  | cons h left =>
    refine line_advances (lines (left.map line) ++ crlf ++ x.response.framing.bytes ++
      xs.flatMap fun x => x.response.bytes) h.isText_line hserves ?_ fun inbuf hrest => ?_
    · rw [hinput, map_cons, append_assoc, append_assoc, lines_cons]
      simp only [append_assoc]
    have hne : trimString h.line ≠ [] := by
      rw [trimString_line]
      exact append_ne_nil_of_right_ne_nil _ (cons_ne_nil _ _)
    obtain ⟨urls, hheader, hactive'⟩ := header_line_spec
      (hactive.congr (r := { s with inbuf }) rfl rfl) hne (by rw [hset])
    rw [hset] at hheader hactive'
    have hnext := (hcoming.congr (r := { s with inbuf }) rfl rfl).next
    obtain ⟨bytes_remaining, encoding, expect_keep_alive, hframe⟩ :=
      frame_spec (trimString h.line) { s with inbuf }
    rw [hframe] at hheader hactive' hnext
    rw [hheader]
    exact ⟨⟨_, .stays (.active hactive' (.headers left hcurl hresponse (hnext.congr rfl rfl))
      hrest) rfl⟩, work_le _⟩

/-! ## The data section -/

/-- What `data_section` leaves, except for `doneurl`. -/
def took (len : Nat) (urls : List WvUrlRequest) (s : WvHttpStream) : WvHttpStream :=
  { s with inbuf := s.inbuf.drop len, urls, bytes_remaining := s.bytes_remaining - len }

theorem data_section_spec {left : Str} (hactive : Active x xs got s)
    (hremaining : s.bytes_remaining = left.length) (hinput : s.inbuf ++ later = left ++ rest) :
    ∃ len urls, Active x xs (got ++ left.take len) (took len urls s) ∧
      (took len urls s).inbuf ++ later = left.drop len ++ rest ∧
      len ≤ left.length ∧ len ≤ s.inbuf.length ∧ (later = [] → left ≠ [] → 0 < len) ∧
      data_section s =
        if (took len urls s).bytes_remaining = 0 && s.encoding = .ContentLength
        then doneurl (took len urls s) else took len urls s := by
  obtain ⟨len, hlen⟩ : ∃ len, len =
    min (if 1024 < s.bytes_remaining then 1024 else s.bytes_remaining) s.inbuf.length := ⟨_, rfl⟩
  have hleft : len ≤ left.length := by
    rw [hlen, ← hremaining]
    split <;> omega
  have hinbuf : len ≤ s.inbuf.length := hlen ▸ Nat.min_le_right _ _
  have htake : s.inbuf.take len = left.take len := by
    have heq := congrArg (take len) hinput
    rwa [take_append_of_le_length hinbuf, take_append_of_le_length hleft] at heq
  obtain ⟨urls, hwrite, hwritten⟩ :=
    (hactive.congr (r := { s with inbuf := s.inbuf.drop len }) rfl rfl).at_outstream
      (f := fun o => { o with data := o.data ++ s.inbuf.take len }) (fun _ => rfl)
  refine ⟨len, urls, ?_, ?_, hleft, hinbuf, ?_, ?_⟩
  · rw [← htake]
    exact hwritten.congr rfl rfl
  · have heq := congrArg (drop len) hinput
    rwa [drop_append_of_le_length hinbuf, drop_append_of_le_length hleft] at heq
  · rintro rfl hne
    have hpos := length_pos_iff.mpr hne
    have hle := congrArg length hinput
    rw [append_nil, length_append] at hle
    rw [hlen, hremaining]
    split <;> omega
  · rw [data_section, ← hlen, read_data, hwrite]
    rfl

theorem length_advances {left : Str} (hactive : Active x xs got s) (hcurl : s.curl = true)
    (hencoding : s.encoding = .ContentLength) (hremaining : s.bytes_remaining = left.length)
    (hframing : x.response.framing = .length (got ++ left))
    (hinput : s.inbuf ++ later = left ++ xs.flatMap fun x => x.response.bytes) :
    Advances later s (data_section s) (x :: xs) := by
  obtain ⟨len, urls, hactive', hinput', hleft, hinbuf, hpos, hsection⟩ :=
    data_section_spec hactive hremaining hinput
  have hle := le_work s
  rw [hsection]
  by_cases hall : len = left.length
  · have hzero : (took len urls s).bytes_remaining = 0 := by
      rw [took, hremaining, hall, Nat.sub_self]
    rw [hall, take_length, show got ++ left = x.response.body by
      rw [Response.body, hframing, Body.data], ← hall] at hactive'
    rw [hall, drop_length, ← hall, nil_append] at hinput'
    obtain ⟨hsteps, hwork⟩ := doneurl_spec hactive' hinput'
    rw [if_pos (by simp [hzero, hencoding])]
    refine ⟨⟨xs, ?_⟩, fun hlater => ?_⟩
    · cases hsteps with
      | answers hserves hfinished => exact .answers hserves hfinished
    · rw [hwork, took, length_drop]
      cases left with
      | nil =>
        have hwork' : s.work = s.inbuf.length + 1 := by
          rw [work, if_pos (by simp [hcurl, hencoding, hremaining])]
        omega
      | cons c left =>
        have hsome := hpos hlater (cons_ne_nil _ _)
        omega
  · have hsome : (took len urls s).bytes_remaining ≠ 0 := by
      rw [took, hremaining]
      dsimp only
      omega
    rw [if_neg (by simp [hsome])]
    refine ⟨⟨_, .stays (.active hactive' (.length (left.drop len) _ hcurl hencoding ?_ ?_) hinput')
      rfl⟩, fun hlater => ?_⟩
    · rw [length_drop, ← hremaining]
      rfl
    · rw [append_assoc, take_append_drop]
      exact hframing
    · have hne : left ≠ [] := by
        rintro rfl
        exact hall (Nat.le_zero.mp hleft)
      have hsome' := hpos hlater hne
      rw [work, if_neg (by simp [hsome]), took, length_drop]
      omega

theorem strtoul_size {size ext : Str} (hne : size ≠ []) (hsize : ∀ c ∈ size, isxdigit c = true)
    (hext : ∀ c ∈ ext.head?, c = 59 ∨ c = 32 ∨ c = 9) :
    trimString (size ++ ext) ≠ [] ∧
      strtoul (trimString (size ++ ext)) = min (number 16 size) (2 ^ 64 - 1) := by
  have htrimmed : Trimmed size :=
    ⟨fun c hc => isspace_of_isxdigit (hsize c (mem_of_mem_head? hc)),
      fun c hc => isspace_of_isxdigit (hsize c (mem_of_getLast? hc))⟩
  rw [trimString_append hne htrimmed]
  refine ⟨append_ne_nil_of_left_ne_nil hne _, strtoul_append hne hsize fun c hc => ?_⟩
  have hhead : c ∈ ext.head? := by
    obtain ⟨w, hw⟩ : trimEnd ext <+: ext := rdropWhile_prefix isspace ext
    rw [← hw]
    cases htrim : trimEnd ext with
    | nil =>
      rw [htrim] at hc
      exact absurd hc (not_mem_none c)
    | cons d ds =>
      rw [htrim] at hc
      exact hc
  rcases hext c hhead with rfl | rfl | rfl <;> decide

theorem number_zeros {digits : Str} (h : ∀ c ∈ digits, c = 48) : number 16 digits = 0 := by
  rw [eq_replicate_of_mem h]
  generalize digits.length = n
  induction n with
  | zero => rfl
  | succ n ih => exact ih

theorem isText_size {size ext : Str} (hsize : ∀ c ∈ size, isxdigit c = true) (hext : IsText ext) :
    IsText (size ++ ext) := by
  refine IsText.append (fun c hc => ?_) hext
  have hle := le_of_isxdigit (hsize c hc)
  refine ⟨?_, ?_, ?_⟩ <;>
  · rintro rfl
    exact absurd hle (by decide)

theorem chunks_advances {b : ChunkedBody} {cs : List Chunk} (hactive : Active x xs got s)
    (hcurl : s.curl = true) (hencoding : s.encoding = .Chunked) (hremaining : s.bytes_remaining = 0)
    (htrailer : s.in_chunk_trailer = false) (hframing : x.response.framing = .chunked b)
    (hsizes : ∀ c ∈ cs, c.data.length < 2 ^ 64) (hgot : got ++ cs.flatMap Chunk.data = b.data)
    (hinput : s.inbuf ++ later = cs.flatMap Chunk.bytes ++ b.ending ++
      xs.flatMap fun x => x.response.bytes) :
    Advances later s (with_line chunk_line s) (x :: xs) := by
  have hserves : Serves later s (x :: xs) := .active hactive
    (.chunks b cs got hcurl hencoding hremaining htrailer hframing hsizes hgot) hinput
  have hsize : ∀ {line inbuf}, line ≠ [] → chunk_line line { s with inbuf } =
      { s with
        inbuf, bytes_remaining := strtoul line, in_chunk_trailer := decide (strtoul line = 0) } := by
    intro line inbuf hne
    rw [chunk_line]
    rw [htrailer, if_neg Bool.false_ne_true, if_neg hne]
  cases cs with
  | nil =>
    have hlast : ∀ c ∈ b.last, isxdigit c = true := by
      intro c hc
      rw [b.last_ok c hc]
      rfl
    refine line_advances (lines (b.trailer.map line) ++ crlf ++
      xs.flatMap fun x => x.response.bytes) (isText_size hlast b.ext_ok) hserves ?_
      fun inbuf hrest => ?_
    · rw [hinput, ChunkedBody.ending, flatMap_nil]
      simp only [nil_append, append_assoc]
    obtain ⟨hne, hnumber⟩ := strtoul_size b.last_ne hlast b.ext_head
    rw [number_zeros b.last_ok, Nat.zero_min] at hnumber
    rw [hsize hne, hnumber]
    rw [flatMap_nil, append_nil] at hgot
    rw [hgot] at hactive
    exact ⟨⟨_, .stays (.active (hactive.congr rfl rfl)
      (.trailer b b.trailer hcurl hencoding rfl rfl hframing) hrest) rfl⟩, work_le _⟩
  | cons c cs =>
    refine line_advances (c.data ++ crlf ++ (cs.flatMap Chunk.bytes ++ b.ending) ++
      xs.flatMap fun x => x.response.bytes) (isText_size c.size_ok c.ext_ok) hserves ?_
      fun inbuf hrest => ?_
    · rw [hinput, flatMap_cons, Chunk.bytes]
      simp only [append_assoc]
    obtain ⟨hne, hnumber⟩ := strtoul_size c.size_ne c.size_ok c.ext_head
    have hsmall := hsizes c mem_cons_self
    rw [c.length_data, Nat.min_eq_left (by omega)] at hnumber
    have hpos := length_pos_iff.mpr c.data_ne
    rw [hsize hne, hnumber, decide_eq_false (by omega)]
    refine ⟨⟨_, .stays (.active (hactive.congr rfl rfl) (.chunk b c.data cs got hcurl hencoding rfl
      rfl hframing (fun c' hc' => hsizes c' (mem_cons_of_mem c hc')) ?_) hrest) rfl⟩, work_le _⟩
    rw [← hgot, flatMap_cons, append_assoc]

theorem chunk_advances {b : ChunkedBody} {left : Str} {cs : List Chunk} (hactive : Active x xs got s)
    (hcurl : s.curl = true) (hencoding : s.encoding = .Chunked)
    (hremaining : s.bytes_remaining = left.length) (htrailer : s.in_chunk_trailer = false)
    (hframing : x.response.framing = .chunked b) (hsizes : ∀ c ∈ cs, c.data.length < 2 ^ 64)
    (hgot : got ++ left ++ cs.flatMap Chunk.data = b.data)
    (hinput : s.inbuf ++ later = left ++ crlf ++ (cs.flatMap Chunk.bytes ++ b.ending) ++
      xs.flatMap fun x => x.response.bytes) :
    Advances later s (if s.bytes_remaining = 0 then with_line chunk_line s else data_section s)
      (x :: xs) := by
  cases left with
  | nil =>
    have hzero : s.bytes_remaining = 0 := hremaining
    rw [if_pos hzero]
    refine line_advances (l := [])
      (cs.flatMap Chunk.bytes ++ b.ending ++ xs.flatMap fun x => x.response.bytes)
      nofun
      (.active hactive (.chunk b [] cs got hcurl hencoding hremaining htrailer hframing hsizes hgot)
        hinput) ?_ fun inbuf hrest => ?_
    · rw [hinput]
      simp only [append_assoc]
    have hsame : chunk_line (trimString []) { s with inbuf } = { s with inbuf } := by
      rw [chunk_line]
      rw [htrailer, if_neg Bool.false_ne_true]
      rfl
    rw [append_nil] at hgot
    rw [hsame]
    exact ⟨⟨_, .stays (.active (hactive.congr rfl rfl)
      (.chunks b cs got hcurl hencoding hremaining htrailer hframing hsizes hgot) hrest) rfl⟩, work_le _⟩
  | cons c left =>
    have hne : s.bytes_remaining ≠ 0 := by
      rw [hremaining]
      exact Nat.succ_ne_zero _
    rw [append_assoc, append_assoc] at hinput
    obtain ⟨len, urls, hactive', hinput', hleft, hinbuf, hpos, hsection⟩ :=
      data_section_spec hactive hremaining hinput
    rw [if_neg hne, hsection, if_neg (by simp [hencoding])]
    refine ⟨⟨_, .stays (.active hactive' (.chunk b ((c :: left).drop len) cs _ hcurl hencoding ?_
      htrailer hframing hsizes ?_) ?_) rfl⟩, fun hlater => ?_⟩
    · rw [length_drop, ← hremaining]
      rfl
    · rw [append_assoc got, take_append_drop]
      exact hgot
    · rw [hinput']
      simp only [append_assoc]
    · have hsome := hpos hlater (cons_ne_nil _ _)
      have hle := le_work s
      rw [work, if_neg, took, length_drop]
      · omega
      · show ¬ (s.curl && s.encoding = .ContentLength && _) = true
        simp [hencoding]

theorem trailer_advances {b : ChunkedBody} {left : List HeaderField}
    (hactive : Active x xs b.data s) (hcurl : s.curl = true) (hencoding : s.encoding = .Chunked)
    (hremaining : s.bytes_remaining = 0) (htrailer : s.in_chunk_trailer = true)
    (hframing : x.response.framing = .chunked b)
    (hinput : s.inbuf ++ later = lines (left.map line) ++ crlf ++
      xs.flatMap fun x => x.response.bytes) :
    Advances later s (with_line chunk_line s) (x :: xs) := by
  have hserves : Serves later s (x :: xs) :=
    .active hactive (.trailer b left hcurl hencoding hremaining htrailer hframing) hinput
  cases left with
  | nil =>
    refine line_advances (l := []) _ nofun hserves hinput
      fun inbuf hrest => ?_
    have hdone : chunk_line (trimString []) { s with inbuf } = doneurl { s with inbuf } := by
      rw [chunk_line]
      rw [htrailer, if_pos rfl]
      rfl
    have hbody : b.data = x.response.body := by rw [Response.body, hframing, Body.data]
    rw [hbody] at hactive
    obtain ⟨hsteps, hwork⟩ := doneurl_spec (hactive.congr (r := { s with inbuf }) rfl rfl) hrest
    rw [hdone, hwork]
    refine ⟨⟨xs, ?_⟩, Nat.le_succ _⟩
    cases hsteps with
    | answers hserves hfinished => exact .answers hserves hfinished
  | cons h left =>
    refine line_advances (lines (left.map line) ++ crlf ++
      xs.flatMap fun x => x.response.bytes) h.isText_line hserves ?_ fun inbuf hrest => ?_
    · rw [hinput, map_cons, append_assoc, lines_cons]
      simp only [append_assoc]
    have hne : trimString h.line ≠ [] := by
      rw [trimString_line]
      exact append_ne_nil_of_right_ne_nil _ (cons_ne_nil _ _)
    have hsame : chunk_line (trimString h.line) { s with inbuf } = { s with inbuf } := by
      rw [chunk_line]
      rw [htrailer, if_pos rfl, if_neg hne]
    rw [hsame]
    exact ⟨⟨_, .stays (.active (hactive.congr rfl rfl)
      (.trailer b left hcurl hencoding hremaining htrailer hframing) hrest) rfl⟩, work_le _⟩

/-! ## Calls of `execute` -/

variable (post_head : WvHttpStream → WvHttpStream)

theorem Steps.of_finished {s' : WvHttpStream} {xs xs' : List Exchange} {r : WvHttpStream}
    (h : Steps later s s' xs xs') (hfinished : s.finished = r.finished) : Steps later r s' xs xs' := by
  cases h with
  | stays hserves hsame => exact .stays hserves (hsame.trans hfinished)
  | answers hserves hmore => exact .answers hserves (hfinished ▸ hmore)

theorem body_section_advances (hactive : Active x xs got s) (hawaits : Awaits x.response s rest got)
    (hcurl : s.curl = true)
    (hinput : s.inbuf ++ later = rest ++ xs.flatMap fun x => x.response.bytes) :
    Advances later s (body_section post_head s) (x :: xs) := by
  rw [body_section]
  cases hawaits with
  | status hnone | headers left hnone =>
    exact absurd (hcurl.symm.trans hnone) Bool.true_eq_false_eq_False
  | length left got _ hencoding hremaining hframing =>
    rw [hencoding]
    exact length_advances hactive hcurl hencoding hremaining hframing hinput
  | chunks b cs got _ hencoding hremaining htrailer hframing hsizes hgot =>
    rw [hencoding]
    rw [if_pos hremaining]
    exact chunks_advances hactive hcurl hencoding hremaining htrailer hframing hsizes hgot hinput
  | chunk b left cs got _ hencoding hremaining htrailer hframing hsizes hgot =>
    rw [hencoding]
    exact chunk_advances hactive hcurl hencoding hremaining htrailer hframing hsizes hgot hinput
  | trailer b left _ hencoding hremaining htrailer hframing =>
    rw [hencoding]
    rw [if_pos hremaining]
    exact trailer_advances hactive hcurl hencoding hremaining htrailer hframing hinput

theorem Awaits.congr {r : Response} (h : Awaits r s rest got) (inbuf : Str)
    (urls : List WvUrlRequest) : Awaits r { s with inbuf, urls } rest got := by
  cases h with
  | status hcurl hresponse hlost hcoming =>
    exact .status hcurl hresponse hlost (hcoming.congr rfl rfl)
  | headers left hcurl hresponse hcoming =>
    exact .headers left hcurl hresponse (hcoming.congr rfl rfl)
  | length left got hcurl hencoding hremaining hframing =>
    exact .length _ _ hcurl hencoding hremaining hframing
  | chunks b cs got hcurl hencoding hremaining htrailer hframing hsizes hgot =>
    exact .chunks b cs got hcurl hencoding hremaining htrailer hframing hsizes hgot
  | chunk b left cs got hcurl hencoding hremaining htrailer hframing hsizes hgot =>
    exact .chunk b left cs got hcurl hencoding hremaining htrailer hframing hsizes hgot
  | trailer b left hcurl hencoding hremaining htrailer hframing =>
    exact .trailer b left hcurl hencoding hremaining htrailer hframing

theorem execute_active {arrived : Str} (h : Serves (arrived ++ later) s (x :: xs)) :
    (∃ xs', Steps later s (execute post_head arrived s) (x :: xs) xs') ∧
      (arrived = [] → later = [] → (execute post_head arrived s).work < s.work) := by
  obtain ⟨rest, got, hactive, hawaits, hinput⟩ : ∃ rest got, Active x xs got s ∧
      Awaits x.response s rest got ∧
      s.inbuf ++ (arrived ++ later) = rest ++ xs.flatMap fun x => x.response.bytes := by
    cases h with
    | active hactive hawaits hinput => exact ⟨_, _, hactive, hawaits, hinput⟩
  have hopen := hactive.isopen
  obtain ⟨url, more, hurls, hgets⟩ := hactive.urls
  have hinput' : (s.inbuf ++ arrived) ++ later = rest ++ xs.flatMap fun x => x.response.bytes := by
    rw [append_assoc, hinput]
  -- what the rest of the function does, from a state that differs in `inbuf` and `urls`
  have hlift : ∀ urls s', Advances later { s with inbuf := s.inbuf ++ arrived, urls } s' (x :: xs) →
      (∃ xs', Steps later s s' (x :: xs) xs') ∧ (arrived = [] → later = [] → s'.work < s.work) := by
    rintro urls s' ⟨⟨xs', hsteps⟩, hless⟩
    refine ⟨⟨xs', hsteps.of_finished rfl⟩, ?_⟩
    rintro rfl hnil
    have hwork := hless hnil
    rw [work, work, append_nil] at hwork
    exact hwork
  have hclosed : ¬ s.closed = true := Bool.eq_false_iff.mp hopen
  rw [execute, if_neg hclosed]
  by_cases hcurl : s.curl = true
  · have hsome : ¬ (s.urls.head?.all fun curl => curl.outstream.isNone) = true := by
      rw [hurls, head?_cons, all_some, isNone_iff_eq_none]
      intro hnone
      have hisSome := hgets.isSome
      rw [hnone] at hisSome
      exact absurd hisSome Bool.false_ne_true
    rw [if_pos hcurl, if_neg hsome]
    have hfirst : at_first (fun curl => { curl with inuse := true })
        { s with inbuf := s.inbuf ++ arrived } =
        { s with
          inbuf := s.inbuf ++ arrived
          urls := { url with inuse := true } :: (xs.map Exchange.request ++ more) } := by
      rw [at_first, hurls]
    rw [hfirst]
    refine hlift _ _ (body_section_advances post_head ?_ (hawaits.congr _ _) hcurl hinput')
    exact ⟨hopen, ⟨_, more, rfl, ⟨hgets.method, hgets.no_test, hgets.isSome⟩, hgets.received⟩,
      hactive.others⟩
  · rw [if_neg hcurl]
    refine hlift s.urls _ ?_
    have hnone : s.curl = false := Bool.eq_false_iff.mpr hcurl
    have hactive' : Active x xs got { s with inbuf := s.inbuf ++ arrived } := hactive.congr rfl rfl
    cases hawaits with
    | status _ hresponse hlost hcoming =>
      exact status_advances hactive' hnone hresponse hlost (hcoming.congr rfl rfl) hinput'
    | headers left _ hresponse hcoming =>
      exact headers_advances hactive' hnone hresponse (hcoming.congr rfl rfl) hinput'
    | length left got hset | chunks b cs got hset | chunk b left cs got hset | trailer b left hset =>
      exact absurd hset hcurl

theorem execute_idle {arrived : Str} (h : Serves (arrived ++ later) s []) :
    execute post_head arrived s = s ∧ arrived = [] := by
  obtain ⟨hready, hinput⟩ := h
  obtain ⟨hinbuf, hrest⟩ := append_eq_nil_iff.mp hinput
  obtain rfl := (append_eq_nil_iff.mp hrest).1
  refine ⟨?_, rfl⟩
  have hsame : ({ s with inbuf := s.inbuf ++ [] } : WvHttpStream) = s := by rw [append_nil]
  have hnone : with_line header_line s = s := by
    rw [with_line, hinbuf]
    rfl
  have hclosed : ¬ s.closed = true := Bool.eq_false_iff.mp hready.isopen
  have hcurl : ¬ s.curl = true := Bool.eq_false_iff.mp hready.curl
  rw [execute, if_neg hclosed]
  rw [if_neg hcurl, hsame, hnone]

/-! ## Runs -/

theorem run_cons (s : WvHttpStream) (arrived : Str) (arrivals : List Str) :
    s.run post_head (arrived :: arrivals) = (s.execute post_head arrived).run post_head arrivals :=
  rfl

/-- The exchanges that are over after some calls, and those that are left. -/
theorem run_serves {arrivals : List Str} (h : Serves (arrivals.flatten ++ later) s xs) :
    ∃ past left, xs = past ++ left ∧ Serves later (s.run post_head arrivals) left ∧
      (s.run post_head arrivals).finished.map received =
        s.finished.map received ++ past.map Exchange.received := by
  induction arrivals generalizing s xs with
  | nil => exact ⟨[], xs, rfl, h, (append_nil _).symm⟩
  | cons arrived arrivals ih =>
    rw [flatten_cons, append_assoc] at h
    rw [run_cons]
    cases xs with
    | nil =>
      obtain ⟨hsame, rfl⟩ := execute_idle post_head h
      rw [hsame]
      exact ih h
    | cons x xs =>
      obtain ⟨⟨xs', hsteps⟩, -⟩ := execute_active post_head h
      cases hsteps with
      | stays hserves hfinished =>
        rw [← hfinished]
        exact ih hserves
      | answers hserves hfinished =>
        obtain ⟨past, left, rfl, hleft, hrun⟩ := ih hserves
        refine ⟨x :: past, left, rfl, hleft, ?_⟩
        rw [hrun, hfinished, append_assoc, map_cons]
        rfl

theorem run_replicate {n : Nat} (h : Serves [] s xs) (hn : s.work ≤ n) :
    Serves [] (s.run post_head (replicate n [])) [] ∧
      (s.run post_head (replicate n [])).finished.map received =
        s.finished.map received ++ xs.map Exchange.received := by
  induction n generalizing s xs with
  | zero =>
    cases xs with
    | nil => exact ⟨h, (append_nil _).symm⟩
    | cons x xs =>
      have harrived : Serves ([] ++ []) s (x :: xs) := h
      have hless := (execute_active post_head harrived).2 rfl rfl
      omega
  | succ n ih =>
    rw [replicate_succ, run_cons]
    cases xs with
    | nil =>
      have harrived : Serves ([] ++ []) s [] := h
      obtain ⟨hsame, -⟩ := execute_idle post_head harrived
      rw [hsame]
      have hwork : s.work = 0 := by
        obtain ⟨hready, hinput⟩ := h
        rw [work, (append_eq_nil_iff.mp hinput).1, hready.curl]
        rfl
      exact ih h (by omega)
    | cons x xs =>
      have harrived : Serves ([] ++ []) s (x :: xs) := h
      obtain ⟨⟨xs', hsteps⟩, hless⟩ := execute_active post_head harrived
      have hwork := hless rfl rfl
      cases hsteps with
      | stays hserves hfinished =>
        rw [← hfinished]
        exact ih hserves (by omega)
      | answers hserves hfinished =>
        obtain ⟨hidle, hrun⟩ := ih hserves (by omega)
        refine ⟨hidle, ?_⟩
        rw [hrun, hfinished, append_assoc, map_cons]
        rfl

theorem Awaits.got_begins {r : Response} (h : Awaits r s rest got) : got <+: r.body := by
  rw [Response.body]
  cases h with
  | status | headers => exact nil_prefix
  | length _ _ _ _ _ hframing =>
    rw [hframing]
    exact prefix_append _ _
  | chunks b cs _ _ _ _ _ hframing _ hgot =>
    rw [hframing, Body.data, ← hgot]
    exact prefix_append _ _
  | chunk b _ cs _ _ _ _ _ hframing _ hgot =>
    rw [hframing, Body.data, ← hgot, append_assoc]
    exact prefix_append _ _
  | trailer b _ _ _ _ _ hframing =>
    rw [hframing, Body.data]

theorem Serves.header_section (h : Serves later s xs) (hcurl : s.curl = false)
    (hresponse : s.http_response = []) :
    s.inbuf ++ later = xs.flatMap fun x => x.response.bytes := by
  cases h with
  | idle _ hinput => exact hinput
  | active _ hawaits hinput =>
    rw [hinput]
    cases hawaits with
    | status => rfl
    | headers _ _ hset => exact absurd hresponse hset
    | length _ _ hset | chunks _ _ _ hset | chunk _ _ _ _ hset | trailer _ _ hset =>
      exact absurd (hset.symm.trans hcurl) Bool.true_eq_false_eq_False

/-- Where every response is `Clear`, each request receives the body of its own response, in order,
and the next header section begins where the last response ends, however the input is cut. -/
theorem delivers_bodies (s : WvHttpStream) (hready : s.Ready) (hinbuf : s.inbuf = [])
    (xs : List Exchange) (more : List WvUrlRequest)
    (hurls : s.urls = xs.map Exchange.request ++ more) (hget : ∀ x ∈ xs, x.request.IsGet)
    (hlost : ∀ x ∈ xs.head?, s.is_lost (trimString x.response.status) = false)
    (hclear : ∀ x ∈ xs, x.response.Clear) (arrivals : List Str) (later : Str)
    (harrivals : arrivals.flatten ++ later = xs.flatMap fun x => x.response.bytes) :
    let t := s.run post_head arrivals
    (∃ past left, xs = past ++ left ∧ t.finished.map received =
        s.finished.map received ++ past.map Exchange.received ∧
      (∀ x ∈ left.head?, ∃ url got, t.urls.head? = some url ∧ got <+: x.response.body ∧
        url.received = x.request.received.map (· ++ got)) ∧ (t.curl = false → t.http_response = [] →
        t.inbuf ++ later = left.flatMap fun x => x.response.bytes)) ∧
    (later = [] → ∀ n, t.work ≤ n → (t.run post_head (replicate n [])).finished.map received =
        s.finished.map received ++ xs.map Exchange.received ∧
      (t.run post_head (replicate n [])).Ready ∧
      (t.run post_head (replicate n [])).inbuf = []) := by
  intro t
  have hstart : Serves (arrivals.flatten ++ later) s xs := by
    rw [harrivals]
    cases xs with
    | nil => exact .idle hready (by rw [hinbuf]; rfl)
    | cons x xs =>
      have hx := hget x mem_cons_self
      refine .active ⟨hready.isopen, ⟨x.request, more, hurls, hx, ?_⟩, fun x' hx' =>
          ⟨hget x' (mem_cons_of_mem x hx'), hclear x' (mem_cons_of_mem x hx')⟩⟩
        (.status hready.curl hready.http_response (hlost x rfl)
          ((hclear x mem_cons_self).coming hready.bytes_remaining)) ?_
      · cases x.request.received with
        | none => rfl
        | some data => exact congrArg some (append_nil data).symm
      · rw [hinbuf]
        rfl
  refine ⟨?_, ?_⟩
  · obtain ⟨past, left, rfl, hserves, hfinished⟩ := run_serves post_head hstart
    refine ⟨past, left, rfl, hfinished, ?_, hserves.header_section⟩
    intro x hx
    cases hserves with
    | idle => exact absurd hx (Option.not_mem_none x)
    | active hactive hawaits _ =>
      obtain rfl := Option.some.inj hx
      obtain ⟨url, more, hurls, hgets⟩ := hactive.urls
      exact ⟨url, _, by rw [hurls]; rfl, hawaits.got_begins, hgets.received⟩
  · rintro rfl n hn
    obtain ⟨past, left, rfl, hserves, hfinished⟩ := run_serves post_head hstart
    obtain ⟨hidle, hrun⟩ := run_replicate post_head hserves hn
    cases hidle with
    | idle hready' hinput =>
      refine ⟨?_, hready', (append_eq_nil_iff.mp hinput).1⟩
      rw [hrun, hfinished, append_assoc, map_append]

end WvHttpStream

/-! ## A stale length -/

namespace WvHttpStream

def getRequest : WvUrlRequest where
  method := bytes "GET"

def sent : WvHttpStream where
  urls := [getRequest]
  enable_pipelining := false

def plainResponse : Response where
  status := bytes "HTTP/1.1 200 OK"
  headers := [⟨bytes "Content-Length", bytes "2", by decide, by decide, by decide⟩]
  framing := .length (bytes "ab")
  status_text := by decide
  status_http := by decide
  framed := ⟨by decide, by decide, by decide⟩

/-- The bytes `hello` in one chunk. -/
def hello : ChunkedBody where
  chunks := [⟨bytes "5", [], bytes "hello", by decide, by decide, by decide, by decide, by decide,
    by decide⟩]
  last := bytes "0"
  ext := []
  trailer := []
  last_ne := by decide
  last_ok := by decide
  ext_ok := by decide
  ext_head := by decide

def chunkedResponse : Response where
  status := bytes "HTTP/1.1 200 OK"
  headers := [⟨bytes "Transfer-Encoding", bytes "chunked", by decide, by decide, by decide⟩]
  framing := .chunked hello
  status_text := by decide
  status_http := by decide
  framed := ⟨by decide, by decide, 0, by decide⟩

/-- A response with both headers. -/
def bothResponse : Response where
  status := bytes "HTTP/1.1 200 OK"
  headers := [⟨bytes "Content-Length", bytes "5", by decide, by decide, by decide⟩,
    ⟨bytes "Transfer-Encoding", bytes "chunked", by decide, by decide, by decide⟩]
  framing := .chunked hello
  status_text := by decide
  status_http := by decide
  framed := ⟨by decide, by decide, 5, by decide⟩

/-- Two requests, of which the second is answered in a chunk. The bytes come in three pieces: the
first is cut in the first body, the second in the size line of the chunk. -/
theorem delivers_two :
    let input := plainResponse.bytes ++ chunkedResponse.bytes
    let t := { sent with urls := [getRequest, getRequest] }.run id
      [input.take 39, (input.drop 39).take 50, input.drop 89]
    ((t.run id (replicate 80 [])).finished.map received =
        [some (bytes "ab"), some (bytes "hello")] ∧
      (t.run id (replicate 80 [])).Ready ∧ (t.run id (replicate 80 [])).inbuf = []) := by
  have hget : getRequest.IsGet := ⟨rfl, rfl, rfl⟩
  have hplain : plainResponse.Clear := by
    show (bytes "ab").length < 2 ^ 31
    decide
  have hchunked : chunkedResponse.Clear :=
    ⟨⟨[], _, [], rfl, rfl, rfl, by simp⟩, by decide, by decide⟩
  refine (delivers_bodies id _ ⟨rfl, rfl, rfl, rfl, rfl⟩ rfl
    [⟨getRequest, plainResponse⟩, ⟨getRequest, chunkedResponse⟩] [] rfl
    (fun x hx => ?_) (fun _ _ => rfl) (fun x hx => ?_) _ [] ?_).2 rfl 80 (by decide +kernel)
  · rcases mem_pair.mp hx with rfl | rfl <;> exact hget
  · rcases mem_pair.mp hx with rfl | rfl
    · exact hplain
    · exact hchunked
  · decide +kernel

/-- The length is taken for the size of the first chunk: its size line is delivered, and not all of
the chunk. -/
theorem delivers_stale :
    (Exchange.mk getRequest bothResponse).received = some (bytes "hello") ∧
      ((sent.run id [bothResponse.bytes]).run id (List.replicate 40 [])).finished.map
        WvUrlRequest.received = [some (bytes "5\r\nhe")] := by
  decide +kernel

end WvHttpStream

end WvStreams
