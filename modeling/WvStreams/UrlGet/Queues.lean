import WvStreams.Lib.Machine
import WvStreams.Strings.WvString

/-!
# The requests of a `WvHttpStream`

A stream sends its requests from one queue and has them answered in another. `close` and `doneurl`
call each other, also when a write fails in the middle of either, and a `close` because of an error
takes a request that waits for the active one if nothing else has been sent. A request with a
`putstream` is sent when it has been read, however many have been sent by then. And `execute` ends
some bodies by a `doneurl` for which there may be no active request any more. `consistent_runs` is
about the runs in which none of these happens.
-/

namespace WvStreams.HttpQueues

open Lib List Option Function Sublist

/-- The pointer to a request that was added, or to a pipeline test of the stream. -/
inductive Addr where
  | request (n : Nat)
  | test (n : Nat)
  deriving DecidableEq

/-- The pipeline tests are those of the stream. -/
def Addr.pipeline_test : Addr → Bool
  | .request _ => false
  | .test _ => true

/-- `putstream` is that there is one, which has not been read to its end. -/
structure WvUrlRequest where
  addr : Addr
  putstream : Bool
  no_putstream : addr.pipeline_test → putstream = false
  deriving DecidableEq

/-- `fails` are the results of the next writes. The last four fields are records: how many tests
were made, which requests were added, which requests and tests were sent, and which have been
done. -/
structure WvHttpStream where
  closed : Bool := false
  err : Bool := false
  fails : List Bool := []
  urls : List WvUrlRequest := []
  waiting_urls : List WvUrlRequest := []
  curl : Option Addr := none
  max_requests : Int
  request_count : Nat := 0
  enable_pipelining : Bool
  pipeline_test_count : Nat := 0
  last_was_pipeline_test : Bool := false
  http_response : Str := []
  pipeline_test_response : Str := []
  sent_url_request : Bool := false
  tests : Nat := 0
  added : List Addr := []
  sent : List Addr := []
  finished : List Addr := []

namespace WvHttpStream

def isok (s : WvHttpStream) : Bool := !s.closed && !s.err

/-- `is_pipelining_failure`: closing without at least one successful pipelining test and a following
request that is no test. -/
def is_pipelining_failure (s : WvHttpStream) : Bool :=
  s.enable_pipelining && decide (1 < s.max_requests) && (decide (s.pipeline_test_count < 1) ||
    (s.pipeline_test_count == 1 && s.last_was_pipeline_test))

section Calls

/-- `close`, given the `doneurl` that it calls. -/
def close_with (doneurl : WvHttpStream → Option WvHttpStream) (s : WvHttpStream) :
    Option WvHttpStream :=
  let failure := s.is_pipelining_failure
  let s := { s with closed := true }
  (if s.err && !failure then
    match s.curl <|> s.urls.head?.map WvUrlRequest.addr <|>
      s.waiting_urls.head?.map WvUrlRequest.addr with
    | some msgurl => doneurl { s with curl := some msgurl }
    | none => some s
  else some s).bind fun s =>
    let s := { s with waiting_urls := [] }
    if s.curl.isSome then doneurl s else some s

/-- The `close` that is called inside of `doneurl`, where `doneurl` returns at once. -/
def close_in_doneurl : WvHttpStream → Option WvHttpStream := close_with some

variable (close : WvHttpStream → Option WvHttpStream)

/-- A write to a stream that is not `isok` does nothing; one that fails is an error, which closes
the stream. -/
def write (s : WvHttpStream) : Option WvHttpStream :=
  if s.isok then
    if s.fails.headD false then close { s with fails := s.fails.tail, err := true }
    else some { s with fails := s.fails.tail }
  else some s

def send_request (url : Addr) (s : WvHttpStream) : Option WvHttpStream :=
  (write close { s with
    request_count := s.request_count + 1, sent := s.sent ++ [url] }).map fun s =>
      { s with sent_url_request := true }

def start_pipeline_test (s : WvHttpStream) : Option WvHttpStream :=
  let testurl := Addr.test s.tests
  (send_request close testurl { s with tests := s.tests + 1 }).map fun s =>
    { s with urls := s.urls ++ [⟨testurl, false, fun _ => rfl⟩] }

/-- The part of `request_next` where a request is sent, unless it has a `putstream`. -/
def send_next (url : WvUrlRequest) (s : WvHttpStream) : Option WvHttpStream :=
  if url.putstream then some s
  else
    (if s.enable_pipelining && s.request_count == 0 && decide (1 < s.max_requests) then
      start_pipeline_test close s else some s).bind (send_request close url.addr)

def request_next (s : WvHttpStream) : Option WvHttpStream :=
  match s.waiting_urls with
  | [] => some s
  | url :: waiting_urls =>
    if s.max_requests ≤ s.request_count || (!s.enable_pipelining && !s.urls.isEmpty) then some s
    else (send_next close url { s with waiting_urls }).map fun s =>
      { s with urls := s.urls ++ [url] }

/-- What `doneurl` does after a pipeline test, and whether pipelining is broken. -/
def done_test (last_response : Str) (s : WvHttpStream) : Option (WvHttpStream × Bool) :=
  let s := { s with pipeline_test_count := s.pipeline_test_count + 1 }
  (if s.pipeline_test_count = 1 then (start_pipeline_test close s).map (·, false)
    else some (s, decide (s.pipeline_test_response ≠ last_response))).map fun (s, broken) =>
      ({ s with pipeline_test_response := last_response }, broken)

end Calls

/-- None if an assertion fails, or the first of no `urls` is looked at. -/
def doneurl (s : WvHttpStream) : Option WvHttpStream :=
  s.curl.bind fun curl =>
    let last_response := s.http_response
    let s := { s with http_response := [], last_was_pipeline_test := curl.pipeline_test }
    (if curl.pipeline_test then done_test close_in_doneurl last_response s
      else some (s, false)).bind fun (s, broken) =>
        match s.urls with
        | [] => none
        | url :: urls =>
          if curl ≠ url.addr then none
          else
            let s := { s with
              finished := s.finished ++ [curl], curl := none, sent_url_request := false, urls }
            (if broken then close_in_doneurl s else some s).bind (request_next close_in_doneurl)

def close : WvHttpStream → Option WvHttpStream := close_with doneurl

def addurl (url : WvUrlRequest) (s : WvHttpStream) : Option WvHttpStream :=
  request_next close
    { s with waiting_urls := s.waiting_urls ++ [url], added := s.added ++ [url.addr] }

/-- What the pool does with a request whose `outstream` has been closed. -/
def delurl (url : Addr) (s : WvHttpStream) : Option WvHttpStream :=
  (if s.curl = some url then doneurl s else some s).map fun s =>
    { s with
      waiting_urls := s.waiting_urls.eraseP fun u => decide (u.addr = url),
      urls := s.urls.eraseP fun u => decide (u.addr = url) }

def seterr (s : WvHttpStream) : Option WvHttpStream :=
  if s.err then some s else close { s with err := true }

/-- `execute` has read the `putstream` of the first request. -/
def upload (s : WvHttpStream) : Option WvHttpStream :=
  match s.urls with
  | [] => some s
  | url :: urls =>
    if !s.sent_url_request && url.putstream then
      send_request close url.addr { s with urls := ⟨url.addr, false, fun _ => rfl⟩ :: urls }
    else some s

/-- `execute` has read the last bytes of a body whose length is given. -/
def body_read (s : WvHttpStream) : Option WvHttpStream :=
  (doneurl s).bind fun s => if s.isok then some s else doneurl s

/-- The connection ends while `execute` waits for what comes after the response to a `HEAD` request,
or throws it away. -/
def head_end (err : Bool) (s : WvHttpStream) : Option WvHttpStream :=
  (close { s with err }).bind doneurl

/-- What happens to a stream. In `execute` a line is the response, a blank line is the beginning of
the data section, which may come to its end, and the user may close the `outstream`: then tests are
counted as done, and the stream is closed. -/
inductive Op where
  | addurl (url : WvUrlRequest)
  | delurl (url : Addr)
  | response (line : Str)
  | data
  | complete
  | body_read
  | head_end (err : Bool)
  | upload
  | outstream_closed
  | seterr
  | close

/-- A step comes with the results of its writes. -/
def machine : Machine WvHttpStream (Op × List Bool) Unit where
  step s i := (match i.1 with
    | .addurl url => addurl url { s with fails := i.2 }
    | .delurl url => delurl url { s with fails := i.2 }
    | .response line => some { s with http_response := line }
    | .data =>
      if s.curl.isSome then some s
      else if s.urls.isEmpty then seterr { s with fails := i.2 }
      else some { s with curl := s.urls.head?.map WvUrlRequest.addr }
    | .complete => if s.curl.isSome then doneurl { s with fails := i.2 } else some s
    | .body_read => if s.curl.isSome && s.isok then body_read { s with fails := i.2 } else some s
    | .head_end err =>
      if s.curl.isSome && s.isok then head_end err { s with fails := i.2 } else some s
    | .upload => upload { s with fails := i.2 }
    | .outstream_closed =>
      some { s with
        pipeline_test_count := s.pipeline_test_count + 1, last_was_pipeline_test := false }
    | .seterr => seterr { s with fails := i.2 }
    | .close => close { s with fails := i.2 }).map (·, ())

/-! ## Consistency -/

def client (addr : Addr) : Bool := !addr.pipeline_test

theorem client_test (n : Nat) : ¬ client (.test n) := Bool.false_ne_true

/-- All requests from the first to the last; `moving` are taken from one queue and not yet in the
other. -/
def line (moving : List Addr) (s : WvHttpStream) : List Addr :=
  s.finished ++ (s.urls.map WvUrlRequest.addr ++ (moving ++ s.waiting_urls.map WvUrlRequest.addr))

structure Inv (moving : List Addr) (s : WvHttpStream) : Prop where
  nodup : (line moving s).Nodup
  order : ((line moving s).filter client).Sublist s.added
  clients : ∀ addr ∈ s.added, client addr
  fresh : ∀ n, .test n ∈ line moving s → n < s.tests
  tested : ∀ n, .test n ∈ line moving s → s.enable_pipelining = true ∧ 1 < s.max_requests
  active : ∀ curl ∈ s.curl, (s.urls.map WvUrlRequest.addr).head? = some curl
  count : (s.sent.filter client).length ≤ s.request_count
  bound : (s.sent.filter client).length ≤ s.max_requests.toNat
  single : s.enable_pipelining = false → s.urls.length + moving.length ≤ 1

/-- With pipelining requests wait only if no more of them may be sent. -/
def Settled (s : WvHttpStream) : Prop :=
  s.enable_pipelining = true → s.waiting_urls ≠ [] → s.max_requests ≤ s.request_count

/-- What a step does not change, and what it sends if no request waits. -/
structure Kept (s s' : WvHttpStream) : Prop where
  added : s'.added = s.added
  max_requests : s'.max_requests = s.max_requests
  enable_pipelining : s'.enable_pipelining = s.enable_pipelining
  count : s.request_count ≤ s'.request_count
  waiting : s.waiting_urls = [] → s'.waiting_urls = []
  sent : s.waiting_urls = [] → s'.sent.filter client = s.sent.filter client
  finished : s.finished ⊆ s'.finished

/-- The last pipeline test is the only request that has been sent, and is not answered as the first
test was. -/
def bad_test (s : WvHttpStream) : Bool :=
  match s.urls with
  | [url] => url.addr.pipeline_test && decide (1 ≤ s.pipeline_test_count) &&
    decide (s.pipeline_test_response ≠ s.http_response)
  | _ => false

/-- `close` would take a waiting request for the active one. -/
def strands (s : WvHttpStream) : Bool :=
  s.err && !s.is_pipelining_failure && !s.waiting_urls.isEmpty && (s.urls.isEmpty || bad_test s)

variable {moving : List Addr} {s s' s'' : WvHttpStream}

theorem Kept.refl (s : WvHttpStream) : Kept s s :=
  ⟨rfl, rfl, rfl, le_rfl, id, fun _ => rfl, Subset.refl _⟩

theorem Kept.trans (h : Kept s s') (h' : Kept s' s'') : Kept s s'' :=
  ⟨h'.added.trans h.added, h'.max_requests.trans h.max_requests,
    h'.enable_pipelining.trans h.enable_pipelining, h.count.trans h'.count,
    fun hwait => h'.waiting (h.waiting hwait),
    fun hwait => (h'.sent (h.waiting hwait)).trans (h.sent hwait),
    Subset.trans h.finished h'.finished⟩

/-! ### What the parts of a step do to the queues -/

theorem Inv.congr (h : Inv moving s) {closed err : Bool} {fails : List Bool}
    {pipeline_test_count : Nat} {last_was_pipeline_test sent_url_request : Bool}
    {http_response pipeline_test_response : Str} :
    Inv moving { s with
      closed, err, fails, pipeline_test_count, last_was_pipeline_test, sent_url_request,
      http_response, pipeline_test_response } :=
  ⟨h.nodup, h.order, h.clients, h.fresh, h.tested, h.active, h.count, h.bound, h.single⟩

theorem Inv.first (h : Inv moving s) {curl : Addr} (hcurl : s.curl = some curl) :
    ∃ url urls, s.urls = url :: urls ∧ url.addr = curl := by
  have hhead := h.active curl hcurl
  cases hurls : s.urls with
  | nil =>
    rw [hurls] at hhead
    cases hhead
  | cons url urls =>
    rw [hurls] at hhead
    exact ⟨url, urls, rfl, some.inj hhead⟩

theorem Inv.drop_waiting (h : Inv moving s) : Inv moving { s with waiting_urls := [] } := by
  have hsub : (line moving { s with waiting_urls := [] }).Sublist (line moving s) :=
    (refl s.finished).append ((refl _).append
      ((refl moving).append (nil_sublist _)))
  exact ⟨h.nodup.sublist hsub, (hsub.filter client).trans h.order, h.clients,
    fun n hn => h.fresh n (hsub.subset hn), fun n hn => h.tested n (hsub.subset hn), h.active,
    h.count, h.bound, h.single⟩

theorem Inv.activate (h : Inv moving s) {curl : Option Addr}
    (hcurl : ∀ addr ∈ curl, (s.urls.map WvUrlRequest.addr).head? = some addr) :
    Inv moving { s with curl } :=
  ⟨h.nodup, h.order, h.clients, h.fresh, h.tested, hcurl, h.count, h.bound, h.single⟩

theorem Inv.new_test (h : Inv moving s) (hpipe : s.enable_pipelining = true)
    (hmax : 1 < s.max_requests) :
    Inv (.test s.tests :: moving) { s with tests := s.tests + 1 } := by
  have hperm : (line (.test s.tests :: moving) { s with tests := s.tests + 1 }).Perm
      (.test s.tests :: line moving s) := by
    unfold line
    rw [← append_assoc s.finished, ← append_assoc s.finished]
    exact perm_middle
  have hline : (line (.test s.tests :: moving) { s with tests := s.tests + 1 }).filter client =
      (line moving s).filter client := by
    simp only [line, filter_append, cons_append, filter_cons_of_neg (client_test s.tests)]
  refine ⟨hperm.nodup_iff.mpr (nodup_cons.mpr ⟨fun hmem => ?_, h.nodup⟩), hline ▸ h.order,
    h.clients, fun n hn => ?_, fun n hn => ⟨hpipe, hmax⟩, h.active, h.count, h.bound, ?_⟩
  · exact absurd (h.fresh s.tests hmem) (lt_irrefl _)
  · rcases mem_cons.mp (hperm.mem_iff.mp hn) with heq | hn
    · obtain rfl : n = s.tests := Addr.test.inj heq
      exact Nat.lt_succ_self _
    · exact Nat.lt_succ_of_lt (h.fresh n hn)
  · intro hno
    rw [hpipe] at hno
    cases hno

variable {url : WvUrlRequest}

theorem Inv.move {waiting_urls : List WvUrlRequest} (h : Inv [] s)
    (hwaiting : s.waiting_urls = url :: waiting_urls)
    (hurls : s.enable_pipelining = false → s.urls = []) :
    Inv [url.addr] { s with waiting_urls } := by
  have hline : line [url.addr] { s with waiting_urls } = line [] s := by
    unfold line
    rw [hwaiting]
    rfl
  refine ⟨hline ▸ h.nodup, hline ▸ h.order, h.clients, hline ▸ h.fresh, hline ▸ h.tested,
    h.active, h.count, h.bound, fun hpipe => ?_⟩
  show s.urls.length + 1 ≤ 1
  rw [hurls hpipe]
  rfl

theorem Inv.append (url : WvUrlRequest) (h : Inv (url.addr :: moving) s) :
    Inv moving { s with urls := s.urls ++ [url] } := by
  have hline : line moving { s with urls := s.urls ++ [url] } = line (url.addr :: moving) s := by
    unfold line
    rw [map_append, append_assoc]
    rfl
  refine ⟨hline ▸ h.nodup, hline ▸ h.order, h.clients, hline ▸ h.fresh, hline ▸ h.tested, ?_,
    h.count, h.bound, fun hpipe => ?_⟩
  · intro curl hcurl
    have hhead := h.active curl hcurl
    cases hurls : s.urls with
    | nil =>
      rw [hurls] at hhead
      cases hhead
    | cons first urls =>
      rw [hurls] at hhead
      exact hhead
  · have hsingle := h.single hpipe
    rw [length_cons] at hsingle
    rw [length_append, length_singleton]
    omega

theorem Inv.count_sent (h : Inv moving s) (url : Addr)
    (hroom : client url → (s.sent.filter client).length < s.max_requests.toNat) :
    Inv moving { s with request_count := s.request_count + 1, sent := s.sent ++ [url] } := by
  have hcount := h.count
  have hsent : (s.sent ++ [url]).filter client = s.sent.filter client ++ [url].filter client :=
    filter_append ..
  have hle := length_filter_le client [url]
  rw [length_singleton] at hle
  refine ⟨h.nodup, h.order, h.clients, h.fresh, h.tested, h.active, ?_, ?_, h.single⟩
  · show ((s.sent ++ [url]).filter client).length ≤ s.request_count + 1
    rw [hsent, length_append]
    omega
  · show ((s.sent ++ [url]).filter client).length ≤ s.max_requests.toNat
    rw [hsent, length_append]
    by_cases hclient : client url
    · have hlt := hroom hclient
      omega
    · rw [filter_cons_of_neg hclient]
      exact h.bound

theorem Inv.finish {urls : List WvUrlRequest} (h : Inv moving s) (hurls : s.urls = url :: urls) :
    Inv moving { s with
      finished := s.finished ++ [url.addr], curl := none, sent_url_request := false, urls } := by
  have hline : line moving { s with
      finished := s.finished ++ [url.addr], curl := none, sent_url_request := false, urls } =
      line moving s := by
    unfold line
    rw [hurls, append_assoc]
    rfl
  refine ⟨hline ▸ h.nodup, hline ▸ h.order, h.clients, hline ▸ h.fresh, hline ▸ h.tested,
    fun _ haddr => absurd haddr (not_mem_none _), h.count, h.bound, fun hpipe => ?_⟩
  have hsingle := h.single hpipe
  rw [hurls, length_cons] at hsingle
  show urls.length + moving.length ≤ 1
  omega

/-! ### Sending requests -/

/-- `close` finds the first of the requests that have been sent, or no request at all. -/
structure Closable (moving : List Addr) (s : WvHttpStream) : Prop where
  settled : Settled s
  strands : strands s = false
  moving : moving ≠ [] → s.waiting_urls = []

theorem settled_of_nil (h : s.waiting_urls = []) : Settled s := fun _ hne => absurd h hne

theorem closable_of_nil (h : s.waiting_urls = []) : Closable moving s :=
  ⟨settled_of_nil h, by simp [strands, h], fun _ => h⟩

/-- What the functions that send requests rely on. -/
def Closes (close : WvHttpStream → Option WvHttpStream) : Prop :=
  ∀ moving s, Inv moving s → Closable moving s →
    ∃ s', close s = some s' ∧ Inv moving s' ∧ s'.waiting_urls = [] ∧ Kept s s'

section Calls

variable {close : WvHttpStream → Option WvHttpStream}

theorem write_spec (hclose : Closes close) (h : Inv moving s)
    (hsafe : s.isok → s.fails.headD false → Closable moving { s with err := true }) :
    ∃ s', write close s = some s' ∧ Inv moving s' ∧ Kept s s' ∧ (Settled s → Settled s') := by
  unfold write
  by_cases hok : s.isok
  · rw [if_pos hok]
    by_cases hfail : s.fails.headD false
    · rw [if_pos hfail]
      obtain ⟨hsettled, hstrands, hmoving⟩ := hsafe hok hfail
      obtain ⟨s', hs', hinv, hnone, hkept⟩ := hclose moving
        { s with fails := s.fails.tail, err := true } h.congr ⟨hsettled, hstrands, hmoving⟩
      exact ⟨s', hs', hinv, ⟨hkept.added, hkept.max_requests, hkept.enable_pipelining, hkept.count,
        hkept.waiting, hkept.sent, hkept.finished⟩, fun _ => settled_of_nil hnone⟩
    · rw [if_neg hfail]
      exact ⟨_, rfl, h.congr, ⟨rfl, rfl, rfl, le_rfl, id, fun _ => rfl, Subset.refl _⟩, id⟩
  · rw [if_neg hok]
    exact ⟨s, rfl, h, Kept.refl s, id⟩

theorem Settled.count (h : Settled s) {sent : List Addr} :
    Settled { s with request_count := s.request_count + 1, sent } := by
  intro hpipe hne
  have hfull := h hpipe hne
  show s.max_requests ≤ (s.request_count + 1 : Nat)
  omega

theorem send_request_spec (hclose : Closes close) (h : Inv moving s) (url : Addr)
    (hroom : client url → (s.sent.filter client).length < s.max_requests.toNat)
    (hsafe : s.isok → s.fails.headD false → Closable moving { s with err := true }) :
    ∃ s', send_request close url s = some s' ∧ Inv moving s' ∧
      Kept { s with request_count := s.request_count + 1, sent := s.sent ++ [url] } s' ∧
      (Settled s → Settled s') := by
  obtain ⟨s', hs', hinv, hkept, hsettled⟩ := write_spec hclose (h.count_sent url hroom)
    fun hok hfail => ⟨(hsafe hok hfail).settled.count, (hsafe hok hfail).strands,
      (hsafe hok hfail).moving⟩
  refine ⟨{ s' with sent_url_request := true }, ?_, hinv.congr, ⟨hkept.added, hkept.max_requests,
    hkept.enable_pipelining, hkept.count, hkept.waiting, hkept.sent, hkept.finished⟩,
    fun h => hsettled h.count⟩
  unfold send_request
  rw [hs']
  rfl

theorem start_pipeline_test_spec (hclose : Closes close) (h : Inv moving s)
    (hpipe : s.enable_pipelining = true) (hmax : 1 < s.max_requests)
    (hwait : s.isok → s.fails.headD false → s.waiting_urls = []) :
    ∃ s', start_pipeline_test close s = some s' ∧ Inv moving s' ∧ Kept s s' := by
  obtain ⟨s', hs', hinv, hkept, -⟩ := send_request_spec hclose (h.new_test hpipe hmax)
    (.test s.tests) (fun hclient => absurd hclient (client_test _))
    fun hok hfail => closable_of_nil (hwait hok hfail)
  refine ⟨{ s' with urls := s'.urls ++ [⟨.test s.tests, false, fun _ => rfl⟩] }, ?_,
    hinv.append _, hkept.added, hkept.max_requests, hkept.enable_pipelining,
    (Nat.le_succ _).trans hkept.count, hkept.waiting, fun hnone => ?_, hkept.finished⟩
  · simp only [start_pipeline_test, hs', map_some]
  · refine (hkept.sent hnone).trans ?_
    rw [filter_append, filter_cons_of_neg (client_test _), filter_nil, append_nil]

theorem send_next_spec (hclose : Closes close) {url : WvUrlRequest} (h : Inv (url.addr :: moving) s)
    (hroom : s.request_count < s.max_requests)
    (hpipe : s.enable_pipelining = true → s.waiting_urls = [])
    (hwait : url.putstream = false → s.isok → s.fails.headD false → s.waiting_urls = []) :
    ∃ s', send_next close url s = some s' ∧ Inv (url.addr :: moving) s' ∧
      Kept { s with sent := s'.sent } s' := by
  have hcount := h.count
  unfold send_next
  by_cases hput : url.putstream
  · rw [if_pos hput]
    exact ⟨s, rfl, h, Kept.refl s⟩
  rw [if_neg hput]
  replace hwait := hwait (Bool.eq_false_iff.mpr hput)
  by_cases htest : s.enable_pipelining && s.request_count == 0 && decide (1 < s.max_requests)
  · rw [if_pos htest]
    simp only [Bool.and_eq_true, decide_eq_true_eq, beq_iff_eq] at htest
    obtain ⟨⟨hpipelining, hzero⟩, hmax⟩ := htest
    have hnone := hpipe hpipelining
    obtain ⟨t, ht, hinv, hkept⟩ := start_pipeline_test_spec hclose h hpipelining hmax hwait
    have hsent : (t.sent.filter client).length < t.max_requests.toNat := by
      rw [hkept.sent hnone, hkept.max_requests]
      omega
    obtain ⟨s', hs', hinv', hkept', -⟩ := send_request_spec hclose hinv url.addr
      (fun _ => hsent) fun _ _ => closable_of_nil (hkept.waiting hnone)
    exact ⟨s', by rw [ht, bind_some, hs'], hinv', hkept'.added.trans hkept.added,
      hkept'.max_requests.trans hkept.max_requests,
      hkept'.enable_pipelining.trans hkept.enable_pipelining,
      hkept.count.trans ((Nat.le_succ _).trans hkept'.count),
      fun _ => hkept'.waiting (hkept.waiting hnone), fun _ => rfl,
      Subset.trans hkept.finished hkept'.finished⟩
  · rw [if_neg htest]
    obtain ⟨s', hs', hinv, hkept, -⟩ := send_request_spec hclose h url.addr
      (fun _ => by omega) fun hok hfail => closable_of_nil (hwait hok hfail)
    exact ⟨s', hs', hinv, hkept.added, hkept.max_requests, hkept.enable_pipelining,
      (Nat.le_succ _).trans hkept.count, hkept.waiting, fun _ => rfl, hkept.finished⟩

/-- The write of the first of several waiting requests fails, and no other request has been sent. -/
def next_fails (s : WvHttpStream) : Bool :=
  s.isok && s.fails.headD false && !s.enable_pipelining && s.urls.isEmpty &&
    decide (s.request_count < s.max_requests) &&
    match s.waiting_urls with
    | url :: _ :: _ => !url.putstream
    | _ => false

theorem request_next_spec (hclose : Closes close) (h : Inv moving s)
    (hmoving : moving ≠ [] → s.waiting_urls = [])
    (hpipe : s.enable_pipelining = true → s.request_count < s.max_requests →
      s.waiting_urls.length ≤ 1) (hfails : next_fails s = false) :
    ∃ s', request_next close s = some s' ∧ Inv moving s' ∧ Settled s' ∧ Kept s s' := by
  unfold request_next
  cases hwaiting : s.waiting_urls with
  | nil => exact ⟨s, rfl, h, settled_of_nil hwaiting, Kept.refl s⟩
  | cons url waiting_urls =>
    obtain rfl : moving = [] := by
      by_contra hne
      rw [hmoving hne] at hwaiting
      cases hwaiting
    by_cases hstop : (decide (s.max_requests ≤ s.request_count) ||
        (!s.enable_pipelining && !s.urls.isEmpty)) = true
    · refine ⟨s, if_pos hstop, h, fun hpipelining _ => ?_, Kept.refl s⟩
      simpa [hpipelining] using hstop
    · have hgo := hstop
      simp only [Bool.or_eq_true, decide_eq_true_eq, not_or, not_le, Bool.and_eq_true,
        Bool.not_eq_true', not_and, Bool.not_eq_false, List.isEmpty_iff] at hgo
      obtain ⟨hroom, hempty⟩ := hgo
      have hnone : s.enable_pipelining = true → waiting_urls = [] := by
        intro hpipelining
        have hlen := hpipe hpipelining hroom
        rw [hwaiting, List.length_cons] at hlen
        exact List.eq_nil_of_length_eq_zero (by omega)
      have hwait : url.putstream = false → s.isok → s.fails.headD false → waiting_urls = [] := by
        intro hput hok hfail
        by_cases hpipelining : s.enable_pipelining = true
        · exact hnone hpipelining
        · cases waiting_urls with
          | nil => rfl
          | cons other rest =>
            have hno := Bool.eq_false_iff.mpr hpipelining
            have hyes : next_fails s = !url.putstream := by
              rw [next_fails, hok, hfail, hno, hempty hno, decide_eq_true hroom, hwaiting]
              rfl
            rw [hyes, hput] at hfails
            cases hfails
      obtain ⟨s', hs', hinv, hkept⟩ :=
        send_next_spec hclose (h.move hwaiting hempty) hroom hnone hwait
      refine ⟨{ s' with urls := s'.urls ++ [url] }, ?_, hinv.append _,
        fun hpipelining => ?_, hkept.added, hkept.max_requests, hkept.enable_pipelining,
        hkept.count, ?_, ?_, hkept.finished⟩
      · exact (if_neg hstop).trans (by simp only [hs', map_some])
      · apply settled_of_nil _ hpipelining
        exact hkept.waiting (hnone (hkept.enable_pipelining.symm.trans hpipelining))
      · intro hnil
        rw [hwaiting] at hnil
        cases hnil
      · intro hnil
        rw [hwaiting] at hnil
        cases hnil

end Calls

/-! ### Inside of `doneurl` -/

theorem close_in_doneurl_spec (h : Inv moving s)
    (hurls : s.err → s.is_pipelining_failure = false → s.waiting_urls ≠ [] → s.urls ≠ []) :
    ∃ curl, close_in_doneurl s = some { s with closed := true, waiting_urls := [], curl } ∧
      (∀ addr ∈ curl, (s.urls.map WvUrlRequest.addr).head? = some addr) ∧
      (s.curl.isSome → curl = s.curl) := by
  unfold close_in_doneurl close_with
  by_cases herr : s.err && !s.is_pipelining_failure
  · simp only [herr, if_true]
    rw [Bool.and_eq_true, Bool.not_eq_true'] at herr
    cases hcurl : s.curl with
    | some curl =>
      refine ⟨some curl, by simp, fun addr haddr => ?_, fun _ => rfl⟩
      exact h.active addr (hcurl ▸ haddr)
    | none =>
      cases hfirst : s.urls with
      | cons url urls => exact ⟨some url.addr, by simp, fun addr haddr => haddr, by simp⟩
      | nil =>
        have hnone : s.waiting_urls = [] := by
          by_contra hne
          exact hurls herr.1 herr.2 hne hfirst
        exact ⟨none, by simp [hnone], by simp, by simp⟩
  · simp only [herr]
    exact ⟨s.curl, by simp, h.active, fun _ => rfl⟩

theorem close_in_doneurl_inv (h : Inv moving s)
    (hurls : s.err → s.is_pipelining_failure = false → s.waiting_urls ≠ [] → s.urls ≠ []) :
    ∃ s', close_in_doneurl s = some s' ∧ Inv moving s' ∧ s'.waiting_urls = [] ∧ Kept s s' := by
  obtain ⟨curl, hclose, hhead, -⟩ := close_in_doneurl_spec h hurls
  exact ⟨{ s with closed := true, waiting_urls := [], curl }, hclose,
    (h.drop_waiting.activate hhead).congr, rfl, rfl, rfl, rfl, le_rfl, fun _ => rfl, fun _ => rfl,
    Subset.refl _⟩

theorem closes_close_in_doneurl : Closes close_in_doneurl := by
  intro moving s h hclosable
  apply close_in_doneurl_inv h
  intro herr hfailure hne hnil
  have hyes : strands s = true := by
    rw [strands, herr, hfailure, hnil, isEmpty_eq_false_iff.mpr hne]
    rfl
  rw [hclosable.strands] at hyes
  cases hyes

theorem write_in_doneurl (h : Inv moving s) (hcurl : s.curl.isSome) :
    ∃ closed err fails waiting_urls, (waiting_urls = s.waiting_urls ∨ waiting_urls = []) ∧
      write close_in_doneurl s = some { s with closed, err, fails, waiting_urls } := by
  unfold write
  by_cases hok : s.isok
  · rw [if_pos hok]
    by_cases hfail : s.fails.headD false
    · rw [if_pos hfail]
      have hinv : Inv moving { s with fails := s.fails.tail, err := true } := h.congr
      obtain ⟨curl, hclose, -, heq⟩ := close_in_doneurl_spec hinv fun _ _ _ hnil => by
          obtain ⟨addr, haddr⟩ := isSome_iff_exists.mp hcurl
          have hhead := h.active addr haddr
          rw [show s.urls = [] from hnil] at hhead
          cases hhead
      obtain rfl := heq hcurl
      exact ⟨true, true, s.fails.tail, [], Or.inr rfl, hclose⟩
    · rw [if_neg hfail]
      exact ⟨s.closed, s.err, s.fails.tail, s.waiting_urls, Or.inl rfl, rfl⟩
  · rw [if_neg hok]
    exact ⟨s.closed, s.err, s.fails, s.waiting_urls, Or.inl rfl, rfl⟩

theorem start_pipeline_test_in_doneurl (h : Inv moving s) (hcurl : s.curl.isSome)
    (hpipe : s.enable_pipelining = true) (hmax : 1 < s.max_requests) :
    ∃ closed err fails waiting_urls, (waiting_urls = s.waiting_urls ∨ waiting_urls = []) ∧
      start_pipeline_test close_in_doneurl s = some { s with
        closed, err, fails, waiting_urls, tests := s.tests + 1,
        request_count := s.request_count + 1, sent := s.sent ++ [.test s.tests],
        sent_url_request := true, urls := s.urls ++ [⟨.test s.tests, false, fun _ => rfl⟩] } := by
  obtain ⟨closed, err, fails, waiting_urls, hwaiting, hwrite⟩ := write_in_doneurl
    ((h.new_test hpipe hmax).count_sent (.test s.tests)
      fun hclient => absurd hclient (client_test _)) hcurl
  refine ⟨closed, err, fails, waiting_urls, hwaiting, ?_⟩
  simp only [start_pipeline_test, send_request, hwrite, map_some]

/-- What is left after a test is done, before it is taken out. -/
structure Tested (moving : List Addr) (s t : WvHttpStream) (broken : Bool) : Prop where
  inv : Inv moving t
  kept : Kept s t
  waiting : t.waiting_urls = s.waiting_urls ∨ t.waiting_urls = []
  urls : ∃ urls, t.urls = s.urls ++ urls
  err : broken → t.err = s.err

theorem done_test_spec (h : Inv moving s) (hcurl : s.curl.isSome)
    (hpipe : s.enable_pipelining = true) (hmax : 1 < s.max_requests) (last_response : Str) :
    ∃ t broken, done_test close_in_doneurl last_response s = some (t, broken) ∧
      Tested moving s t broken ∧
      (broken → 1 ≤ s.pipeline_test_count ∧ s.pipeline_test_response ≠ last_response) := by
  by_cases hfirst : s.pipeline_test_count + 1 = 1
  · obtain ⟨closed, err, fails, waiting_urls, hwaiting, hstart⟩ :=
      start_pipeline_test_in_doneurl
        (s := { s with pipeline_test_count := s.pipeline_test_count + 1 }) h.congr hcurl hpipe hmax
    have hinv := ((h.new_test hpipe hmax).count_sent (.test s.tests)
      fun hclient => absurd hclient (client_test _)).append ⟨.test s.tests, false, fun _ => rfl⟩
    have hsent : (s.sent ++ [Addr.test s.tests]).filter client = s.sent.filter client := by
      rw [filter_append, filter_cons_of_neg (client_test _), filter_nil, append_nil]
    refine ⟨{ s with
      closed, err, fails, waiting_urls, tests := s.tests + 1, request_count := s.request_count + 1,
      sent := s.sent ++ [.test s.tests], sent_url_request := true,
      pipeline_test_count := s.pipeline_test_count + 1, pipeline_test_response := last_response,
      urls := s.urls ++ [⟨.test s.tests, false, fun _ => rfl⟩] }, false, ?_, ?_,
      nofun⟩
    · simp only [done_test, if_pos hfirst, hstart, map_some]
    · refine ⟨?_, ⟨rfl, rfl, rfl, Nat.le_succ _, fun hnone => ?_, fun _ => hsent,
        Subset.refl _⟩, hwaiting, ⟨_, rfl⟩, nofun⟩
      · rcases hwaiting with rfl | rfl
        · exact hinv.congr
        · exact hinv.drop_waiting.congr
      · rcases hwaiting with rfl | rfl
        · exact hnone
        · rfl
  · refine ⟨{ s with
      pipeline_test_count := s.pipeline_test_count + 1, pipeline_test_response := last_response },
      decide (s.pipeline_test_response ≠ last_response), ?_, ?_, fun hbroken => ?_⟩
    · simp only [done_test, if_neg hfirst, map_some]
    · exact ⟨h.congr, ⟨rfl, rfl, rfl, le_rfl, id, fun _ => rfl, Subset.refl _⟩, Or.inl rfl,
        ⟨[], (append_nil _).symm⟩, fun _ => rfl⟩
    · exact ⟨by omega, of_decide_eq_true hbroken⟩

theorem Tested.settled {broken : Bool} (h : Tested moving s s' broken) (hsettled : Settled s) :
    Settled s' := by
  intro hpipe hne
  have hold : s.waiting_urls ≠ [] := by
    rcases h.waiting with heq | hnil
    · exact heq ▸ hne
    · exact absurd hnil hne
  have hfull := hsettled (h.kept.enable_pipelining.symm.trans hpipe) hold
  have hcount := h.kept.count
  have hmax := h.kept.max_requests
  omega

variable {urls : List WvUrlRequest}

theorem finish_spec (broken : Bool) (h : Inv moving s)
    (hurls : s.urls = url :: urls) (hsettled : Settled s)
    (hmoving : moving ≠ [] → s.waiting_urls = [])
    (hbroken : broken → s.err → s.waiting_urls ≠ [] → urls ≠ [])
    (hfails : next_fails { s with urls } = false) :
    ∃ s', ((if broken then close_in_doneurl { s with
        finished := s.finished ++ [url.addr], curl := none, sent_url_request := false, urls }
      else some { s with
        finished := s.finished ++ [url.addr], curl := none, sent_url_request := false, urls }).bind
          (request_next close_in_doneurl)) = some s' ∧
      Inv moving s' ∧ Settled s' ∧ Kept s s' ∧ url.addr ∈ s'.finished := by
  have hfinish := h.finish hurls
  have hsub : s.finished ⊆ s.finished ++ [url.addr] := subset_append_left _ _
  have hmem : url.addr ∈ s.finished ++ [url.addr] := mem_append_right _ mem_cons_self
  by_cases hbreak : broken
  · obtain ⟨s', hclose, hinv, hnone, hkept⟩ := close_in_doneurl_inv hfinish
      fun herr _ hne => hbroken hbreak herr hne
    refine ⟨s', ?_, hinv, settled_of_nil hnone, ⟨hkept.added, hkept.max_requests,
      hkept.enable_pipelining, hkept.count, hkept.waiting, hkept.sent,
      Subset.trans hsub hkept.finished⟩, hkept.finished hmem⟩
    rw [if_pos hbreak, hclose, Option.bind_some]
    unfold request_next
    simp only [hnone]
  · -- with pipelining nothing waits while there is room
    have hpipe : s.enable_pipelining = true → s.request_count < s.max_requests →
        s.waiting_urls.length ≤ 1 := by
      intro hpipe hroom
      by_contra hlen
      have hne : s.waiting_urls ≠ [] := by
        intro hnil
        exact hlen (by simp [hnil])
      exact absurd (hsettled hpipe hne) (not_le.mpr hroom)
    obtain ⟨s', hs', hinv, hsettled', hkept⟩ := request_next_spec closes_close_in_doneurl hfinish
      hmoving hpipe hfails
    exact ⟨s', (congrArg (Option.bind · _) (if_neg hbreak)).trans hs', hinv, hsettled',
      ⟨hkept.added, hkept.max_requests, hkept.enable_pipelining, hkept.count, hkept.waiting,
        hkept.sent, Subset.trans hsub hkept.finished⟩, hkept.finished hmem⟩

theorem doneurl_spec (h : Inv moving s) (hcurl : s.curl.isSome) (hsettled : Settled s)
    (hmoving : moving ≠ [] → s.waiting_urls = [])
    (hbad : s.err → bad_test s → s.waiting_urls = [])
    (hfails : next_fails { s with urls := s.urls.tail } = false) :
    ∃ s', doneurl s = some s' ∧ Inv moving s' ∧ Settled s' ∧ Kept s s' ∧
      ∀ curl ∈ s.curl, curl ∈ s'.finished := by
  obtain ⟨curl, hc⟩ := isSome_iff_exists.mp hcurl
  obtain ⟨url, urls, hurls, rfl⟩ := h.first hc
  rw [hurls] at hfails
  have hactive : Inv moving { s with curl := some url.addr } :=
    h.activate fun addr haddr => by rw [hurls]; exact haddr
  unfold doneurl
  rw [hc, bind_some]
  by_cases htest : url.addr.pipeline_test
  · obtain ⟨n, hn⟩ : ∃ n, url.addr = .test n := by
      cases haddr : url.addr with
      | request n =>
        rw [haddr] at htest
        cases htest
      | test n => exact ⟨n, rfl⟩
    obtain ⟨hpipe, hmax⟩ := h.tested n (by
      unfold line
      rw [hurls, map_cons, hn]
      exact mem_append_right _ mem_cons_self)
    obtain ⟨t, broken, htested, hspec, hbroken⟩ := done_test_spec (s := { s with
      http_response := [], last_was_pipeline_test := url.addr.pipeline_test,
      curl := some url.addr }) hactive.congr rfl hpipe hmax s.http_response
    obtain ⟨more, hmore⟩ := hspec.urls
    replace hmore : t.urls = url :: (urls ++ more) := by
      rw [hmore, hurls]
      rfl
    have hpipe' : t.enable_pipelining = true := hspec.kept.enable_pipelining.trans hpipe
    have hbreak : broken → t.err → t.waiting_urls ≠ [] → urls ++ more ≠ [] := by
      rintro hbreak herr hne hnil
      obtain ⟨htests, hresponse⟩ := hbroken hbreak
      have herr' := hspec.err hbreak
      have hyes : bad_test s = true := by
        rw [bad_test, hurls, (append_eq_nil_iff.mp hnil).1]
        simpa using ⟨⟨htest, htests⟩, hresponse⟩
      exact hne (hspec.kept.waiting (hbad (herr' ▸ herr) hyes))
    obtain ⟨s', hs', hinv, hsettled', hkept, hmem⟩ := finish_spec broken hspec.inv
      hmore (hspec.settled hsettled) (fun hne => hspec.kept.waiting (hmoving hne)) hbreak
      (by simp [next_fails, hpipe'])
    have hkept' := hspec.kept.trans hkept
    refine ⟨s', ?_, hinv, hsettled', ⟨hkept'.added, hkept'.max_requests, hkept'.enable_pipelining,
      hkept'.count, hkept'.waiting, hkept'.sent, hkept'.finished⟩,
      fun curl hcurl => mem_some.mp hcurl ▸ hmem⟩
    simp only [if_pos htest, htested, bind_some, hmore, ne_eq, not_true_eq_false, if_false]
    exact hs'
  · obtain ⟨s', hs', hinv, hsettled', hkept, hmem⟩ := finish_spec false (s := { s with
      http_response := [], last_was_pipeline_test := url.addr.pipeline_test,
      curl := some url.addr }) hactive.congr hurls hsettled hmoving
      nofun hfails
    refine ⟨s', ?_, hinv, hsettled', ⟨hkept.added, hkept.max_requests, hkept.enable_pipelining,
      hkept.count, hkept.waiting, hkept.sent, hkept.finished⟩,
      fun curl hcurl => mem_some.mp hcurl ▸ hmem⟩
    simp only [if_neg htest, bind_some, hurls, ne_eq, not_true_eq_false, if_false]
    exact hs'

theorem zap_spec (h : Inv moving s) :
    ∃ s', (if s.curl.isSome then doneurl { s with waiting_urls := [] }
        else some { s with waiting_urls := [] }) = some s' ∧
      Inv moving s' ∧ s'.waiting_urls = [] ∧ Kept s s' := by
  by_cases hcurl : s.curl.isSome
  · obtain ⟨s', hs', hinv, -, hkept, -⟩ := doneurl_spec h.drop_waiting hcurl
      (settled_of_nil rfl) (fun _ => rfl) (fun _ _ => rfl) (by simp [next_fails])
    exact ⟨s', (if_pos hcurl).trans hs', hinv, hkept.waiting rfl, hkept.added, hkept.max_requests,
      hkept.enable_pipelining, hkept.count, fun _ => hkept.waiting rfl, fun _ => hkept.sent rfl,
      hkept.finished⟩
  · exact ⟨_, if_neg hcurl, h.drop_waiting, rfl, rfl, rfl, rfl, le_rfl, fun _ => rfl, fun _ => rfl,
      Subset.refl _⟩

theorem msgurl_spec (h : Inv moving s) (hclosable : Closable moving s) (herr : s.err)
    (hfailure : s.is_pipelining_failure = false) :
    ∃ s', (match s.curl <|> s.urls.head?.map WvUrlRequest.addr <|>
          s.waiting_urls.head?.map WvUrlRequest.addr with
        | some msgurl => doneurl { s with closed := true, curl := some msgurl }
        | none => some { s with closed := true }) = some s' ∧ Inv moving s' ∧ Kept s s' := by
  cases hurls : s.urls with
  | nil =>
    have hnone : s.waiting_urls = [] := by
      simpa [strands, herr, hfailure, hurls] using hclosable.strands
    have hcurl : s.curl = none := by
      cases hcurl : s.curl with
      | none => rfl
      | some curl =>
        obtain ⟨url, urls, hfirst, -⟩ := h.first hcurl
        rw [hurls] at hfirst
        cases hfirst
    refine ⟨{ s with closed := true }, ?_, h.congr, rfl, rfl, rfl, le_rfl, id, fun _ => rfl,
      Subset.refl _⟩
    simp [hnone, hcurl, hurls]
  | cons url urls =>
    have hmsgurl : (s.curl <|> (url :: urls).head?.map WvUrlRequest.addr <|>
        s.waiting_urls.head?.map WvUrlRequest.addr) = some url.addr := by
      cases hcurl : s.curl with
      | none => rfl
      | some curl =>
        have hhead := h.active curl hcurl
        rw [hurls] at hhead
        exact hhead.symm
    have hinv : Inv moving { s with closed := true, curl := some url.addr } :=
      (h.activate fun addr haddr => by rw [hurls]; exact haddr).congr
    have hbad : s.err → bad_test s → s.waiting_urls = [] := by
      intro _ hbad
      simpa [strands, herr, hfailure, hbad] using hclosable.strands
    obtain ⟨s', hs', hinv', -, hkept, -⟩ := doneurl_spec hinv rfl hclosable.settled
      hclosable.moving hbad (by simp [next_fails, isok])
    refine ⟨s', ?_, hinv', hkept.added, hkept.max_requests, hkept.enable_pipelining, hkept.count,
      hkept.waiting, hkept.sent, hkept.finished⟩
    simp only [hmsgurl]
    rw [← hurls]
    exact hs'

theorem closes_close : Closes close := by
  intro moving s h hclosable
  obtain ⟨t, ht, hinv, hkept⟩ : ∃ t, (if s.err && !s.is_pipelining_failure then
      match s.curl <|> s.urls.head?.map WvUrlRequest.addr <|>
          s.waiting_urls.head?.map WvUrlRequest.addr with
        | some msgurl => doneurl { s with closed := true, curl := some msgurl }
        | none => some { s with closed := true }
      else some { s with closed := true }) = some t ∧ Inv moving t ∧ Kept s t := by
    by_cases herr : s.err && !s.is_pipelining_failure
    · rw [if_pos herr]
      rw [Bool.and_eq_true, Bool.not_eq_true'] at herr
      exact msgurl_spec h hclosable herr.1 herr.2
    · rw [if_neg herr]
      exact ⟨_, rfl, h.congr, rfl, rfl, rfl, le_rfl, id, fun _ => rfl, Subset.refl _⟩
  obtain ⟨s', hs', hinv', hnone, hkept'⟩ := zap_spec hinv
  refine ⟨s', ?_, hinv', hnone, hkept.trans hkept'⟩
  exact (congrArg (bind · _) ht).trans hs'

/-! ### After the active request -/

/-- The active request is a pipeline test that is not answered as the first one was. -/
def bad_answer (s : WvHttpStream) : Bool :=
  s.urls.head?.any fun url => url.addr.pipeline_test && decide (1 ≤ s.pipeline_test_count) &&
    decide (s.pipeline_test_response ≠ s.http_response)

/-- If a write fails, `close` finds another request that has been sent. -/
def Moored (s : WvHttpStream) : Prop :=
  (s.isok = true ∧ (s.fails.any id = true → s.urls ≠ [] ∧ s.is_pipelining_failure = false)) ∨
    (s.isok = false ∧ s.curl.isSome = true ∧ s.waiting_urls = [])

theorem close_in_doneurl_active (hs : close_in_doneurl s = some s') (herr : s.err = true)
    (hfailure : s.is_pipelining_failure = false) (hurls : s.urls ≠ []) :
    s'.isok = false ∧ s'.curl.isSome = true ∧ s'.waiting_urls = [] := by
  obtain ⟨url, urls, hfirst⟩ := exists_cons_of_ne_nil hurls
  obtain ⟨msgurl, hmsgurl⟩ : ∃ msgurl, (s.curl <|> s.urls.head?.map WvUrlRequest.addr <|>
      s.waiting_urls.head?.map WvUrlRequest.addr) = some msgurl := by
    rw [hfirst]
    cases s.curl with
    | none => exact ⟨url.addr, rfl⟩
    | some curl => exact ⟨curl, rfl⟩
  unfold close_in_doneurl close_with at hs
  simp only [herr, hfailure, hmsgurl] at hs
  obtain rfl := some.inj hs
  exact ⟨rfl, rfl, rfl⟩

theorem Moored.write (h : Moored s) (hs : write close_in_doneurl s = some s') : Moored s' := by
  unfold WvHttpStream.write at hs
  rcases h with ⟨hok, hfails⟩ | hclosed
  · rw [if_pos hok] at hs
    rcases hlist : s.fails with _ | ⟨fails, rest⟩
    · rw [hlist] at hs
      obtain rfl := some.inj hs
      exact .inl ⟨hok, nofun⟩
    · rw [hlist] at hs hfails
      cases fails with
      | true =>
        obtain ⟨hurls, hfailure⟩ := hfails rfl
        exact .inr (close_in_doneurl_active hs rfl hfailure hurls)
      | false =>
        obtain rfl := some.inj hs
        exact .inl ⟨hok, hfails⟩
  · rw [if_neg (by simp [hclosed.1])] at hs
    obtain rfl := some.inj hs
    exact .inr hclosed

theorem Moored.send_request {url : Addr} (h : Moored s)
    (hs : send_request close_in_doneurl url s = some s') : Moored s' := by
  obtain ⟨t, ht, rfl⟩ := map_eq_some_iff.mp hs
  have hcounted : Moored { s with
      request_count := s.request_count + 1, sent := s.sent ++ [url] } := h
  have hwritten := hcounted.write ht
  exact hwritten

theorem Moored.append (h : Moored s) (url : WvUrlRequest) :
    Moored { s with urls := s.urls ++ [url] } :=
  h.imp_left fun h => ⟨h.1, fun hany => ⟨by simp, (h.2 hany).2⟩⟩

theorem Moored.request_next (h : Moored s) (hs : request_next close_in_doneurl s = some s') :
    Moored s' := by
  unfold WvHttpStream.request_next at hs
  split at hs
  · exact some.inj hs ▸ h
  · rename_i url waiting_urls hwaiting
    split_ifs at hs
    · exact some.inj hs ▸ h
    · obtain ⟨t, ht, rfl⟩ := map_eq_some_iff.mp hs
      have hnext : Moored { s with waiting_urls } :=
        h.imp_right fun h => by simp [h.2.2] at hwaiting
      apply Moored.append
      unfold send_next at ht
      split_ifs at ht
      · exact some.inj ht ▸ hnext
      · obtain ⟨u, hu, ht⟩ := bind_eq_some_iff.mp ht
        obtain ⟨v, hv, rfl⟩ := map_eq_some_iff.mp hu
        have htests : Moored { s with waiting_urls, tests := s.tests + 1 } := hnext
        exact ((htests.send_request hv).append _).send_request ht
      · exact hnext.send_request ht

theorem write_of_quiet (close : WvHttpStream → Option WvHttpStream) (hok : s.isok = true)
    (hfails : s.fails.any id = false) : write close s = some { s with fails := s.fails.tail } := by
  unfold WvHttpStream.write
  rw [if_pos hok]
  rcases hlist : s.fails with _ | ⟨_ | _, rest⟩
  · rfl
  · rfl
  · rw [hlist] at hfails
    cases hfails

/-- The requests behind the one that is done, when its end does not break the pipelining. -/
theorem done_test_moored {url : WvUrlRequest} (hok : s.isok = true)
    (hurls : s.urls = url :: urls) (last_response : Str)
    (hsame : s.pipeline_test_count ≠ 0 → s.pipeline_test_response = last_response)
    (hfails : s.fails.any id = true → urls ≠ [] ∧ s.pipeline_test_count ≠ 0) :
    ∃ t urls', done_test close_in_doneurl last_response s = some (t, false) ∧
      t.urls = url :: urls' ∧ t.isok = true ∧
        (t.fails.any id = true → urls' ≠ [] ∧ t.is_pipelining_failure = false) := by
  by_cases hfirst : s.pipeline_test_count = 0
  · have hquiet : s.fails.any id = false := by
      by_contra hany
      exact (hfails (Bool.of_not_eq_false hany)).2 hfirst
    let t : WvHttpStream := { s with
      fails := s.fails.tail, pipeline_test_count := s.pipeline_test_count + 1
      pipeline_test_response := last_response, tests := s.tests + 1
      request_count := s.request_count + 1, sent := s.sent ++ [.test s.tests]
      sent_url_request := true, urls := s.urls ++ [⟨.test s.tests, false, fun _ => rfl⟩] }
    have htest : done_test close_in_doneurl last_response s = some (t, false) := by
      have hwrite := write_of_quiet close_in_doneurl (s := { s with
        pipeline_test_count := s.pipeline_test_count + 1, tests := s.tests + 1,
        request_count := s.request_count + 1, sent := s.sent ++ [.test s.tests] }) hok hquiet
      have hone : s.pipeline_test_count + 1 = 1 := by omega
      simp only [done_test, if_pos hone, start_pipeline_test, WvHttpStream.send_request, hwrite,
        map_some, t]
    refine ⟨t, urls ++ [_], htest, congrArg (· ++ _) hurls, hok, fun hany => ?_⟩
    obtain ⟨fail, hmem, htrue⟩ := any_eq_true.mp hany
    rw [any_eq_true.mpr ⟨fail, mem_of_mem_tail hmem, htrue⟩] at hquiet
    cases hquiet
  · refine ⟨{ s with
      pipeline_test_count := s.pipeline_test_count + 1, pipeline_test_response := last_response },
      urls, ?_, hurls, hok, fun hany => ⟨(hfails hany).1, ?_⟩⟩
    · simp [done_test, hfirst, hsame hfirst]
    · simp [is_pipelining_failure, hfirst]

theorem doneurl_moored {url : WvUrlRequest} (hok : s.isok = true)
    (hcurl : s.curl = some url.addr) (hurls : s.urls = url :: urls) (hbad : bad_answer s = false)
    (hfails : s.fails.any id = true → urls ≠ [] ∧ s.pipeline_test_count ≠ 0)
    (hs : doneurl s = some s') : Moored s' := by
  unfold doneurl at hs
  rw [hcurl, bind_some] at hs
  by_cases htest : url.addr.pipeline_test
  · obtain ⟨t, urls', ht, hurls', hok', hfails'⟩ := done_test_moored (s := { s with
      http_response := [], last_was_pipeline_test := url.addr.pipeline_test,
      curl := some url.addr }) hok hurls s.http_response (fun hcount => by
        by_contra hne
        have hmany : 1 ≤ s.pipeline_test_count := Nat.one_le_iff_ne_zero.mpr hcount
        simp [bad_answer, hurls, htest, hmany] at hbad
        exact hne hbad) hfails
    simp only [if_pos htest, ht, bind_some, hurls', ne_eq, not_true_eq_false, if_false] at hs
    have hleft : Moored { t with
        finished := t.finished ++ [url.addr], curl := none, sent_url_request := false,
        urls := urls' } := .inl ⟨hok', hfails'⟩
    exact hleft.request_next hs
  · simp only [if_neg htest, bind_some, hurls, ne_eq, not_true_eq_false, if_false] at hs
    have hleft : Moored { s with
        http_response := [], last_was_pipeline_test := url.addr.pipeline_test,
        finished := s.finished ++ [url.addr], curl := none, sent_url_request := false, urls } := by
      refine .inl ⟨hok, fun hany => ⟨(hfails hany).1, ?_⟩⟩
      simp [is_pipelining_failure, (hfails hany).2, htest]
    exact hleft.request_next hs

/-! ### Runs -/

/-- The end of the active request is that of a test that fails after an error, or the next write
fails. -/
def done_strands (s : WvHttpStream) : Bool :=
  s.err && s.bad_test && !s.waiting_urls.isEmpty || next_fails { s with urls := s.urls.tail }

/-- `close` takes a waiting request for the active one. -/
def stranding (s : WvHttpStream) : Op × List Bool → Bool
  | (.addurl url, fails) => next_fails { s with fails, waiting_urls := s.waiting_urls ++ [url] }
  | (.delurl url, fails) => decide (s.curl = some url) && done_strands { s with fails }
  | (.complete, fails) => s.curl.isSome && done_strands { s with fails }
  | (.body_read, fails) => s.curl.isSome && s.isok && done_strands { s with fails }
  | (.data, _) => s.curl.isNone && s.urls.isEmpty && !s.err && strands { s with err := true }
  | (.seterr, _) => !s.err && strands { s with err := true }
  | (.close, _) => strands s
  | _ => false

/-- A request is sent after its `putstream` has been read, though as many as are allowed have been
sent. -/
def overrun (s : WvHttpStream) : Op → Bool
  | .upload => (s.urls.head?.any fun url => !s.sent_url_request && url.putstream) &&
    decide (s.max_requests ≤ s.request_count)
  | _ => false

def lost (s : WvHttpStream) : Op × List Bool → Bool
  | (.body_read, fails) => s.curl.isSome && s.isok && (bad_answer s ||
    (fails.any id && (s.urls.tail.isEmpty || s.pipeline_test_count == 0)))
  | (.head_end _, _) => s.curl.isSome && s.isok
  | _ => false

/-- The step is not one of those that go wrong. -/
def Careful (s : WvHttpStream) (i : Op × List Bool) : Prop :=
  stranding s i = false ∧ overrun s i.1 = false ∧ lost s i = false

instance (s : WvHttpStream) (i : Op × List Bool) : Decidable (Careful s i) :=
  inferInstanceAs (Decidable (_ ∧ _ ∧ _))

/-- A request is added once. -/
def Legal (s : WvHttpStream) : Op × List Bool → Prop
  | (.addurl url, _) => client url.addr ∧ url.addr ∉ s.added
  | _ => True

instance (s : WvHttpStream) : (i : Op × List Bool) → Decidable (Legal s i)
  | (.addurl _, _) => inferInstanceAs (Decidable (_ ∧ _))
  | (.delurl _, _) | (.response _, _) | (.data, _) | (.complete, _) | (.body_read, _)
  | (.head_end _, _) | (.upload, _) | (.outstream_closed, _) | (.seterr, _) | (.close, _) => .isTrue trivial

/-- The active request is the first one that has been sent; no request is twice among those that
have been done, are sent, or wait; they are in the order in which they were added, and no more than
`max_requests` have been sent. -/
structure Consistent (s : WvHttpStream) : Prop where
  active : ∀ curl ∈ s.curl, (s.urls.map WvUrlRequest.addr).head? = some curl
  once : (s.finished ++ (s.urls ++ s.waiting_urls).map WvUrlRequest.addr).Nodup
  in_order : ((s.finished ++ (s.urls ++ s.waiting_urls).map WvUrlRequest.addr).filter
    client).Sublist s.added
  bound : (s.sent.filter client).length ≤ s.max_requests.toNat

theorem Inv.consistent (h : Inv [] s) : Consistent s := by
  have hline : line [] s = s.finished ++ (s.urls ++ s.waiting_urls).map WvUrlRequest.addr := by
    rw [line, map_append, nil_append]
  exact ⟨h.active, hline ▸ h.nodup, hline ▸ h.order, h.bound⟩

theorem close_run (h : Inv [] s) (hsettled : Settled s) (hstrands : strands s = false) :
    ∃ s', close s = some s' ∧ Inv [] s' ∧ Settled s' := by
  obtain ⟨s', hs', hinv, hnone, -⟩ :=
    closes_close [] s h ⟨hsettled, hstrands, fun hne => absurd rfl hne⟩
  exact ⟨s', hs', hinv, settled_of_nil hnone⟩

theorem seterr_run (h : Inv [] s) (hsettled : Settled s)
    (hstrands : (!s.err && strands { s with err := true }) = false) :
    ∃ s', seterr s = some s' ∧ Inv [] s' ∧ Settled s' := by
  unfold seterr
  by_cases herr : s.err
  · exact ⟨s, if_pos herr, h, hsettled⟩
  · rw [if_neg herr]
    exact close_run h.congr hsettled (by simpa [herr] using hstrands)

theorem Inv.addurl (h : Inv [] s) (hclient : client url.addr) (hnew : url.addr ∉ s.added) :
    Inv [] { s with waiting_urls := s.waiting_urls ++ [url], added := s.added ++ [url.addr] } := by
  have hline : line [] { s with
      waiting_urls := s.waiting_urls ++ [url], added := s.added ++ [url.addr] } =
      line [] s ++ [url.addr] := by
    simp only [line, map_append, append_assoc, map_cons, map_nil]
  have hold : ∀ n, .test n ∈ line [] s ++ [url.addr] → .test n ∈ line [] s := by
    intro n hn
    rcases mem_append.mp hn with hn | hn
    · exact hn
    · rw [← mem_singleton.mp hn] at hclient
      exact absurd hclient (client_test n)
  refine ⟨?_, ?_, ?_, fun n hn => h.fresh n (hold n (hline ▸ hn)),
    fun n hn => h.tested n (hold n (hline ▸ hn)), h.active, h.count, h.bound, h.single⟩
  · rw [hline]
    apply h.nodup.append (nodup_singleton _)
    intro addr hline hurl
    obtain rfl := mem_singleton.mp hurl
    exact hnew (h.order.subset (mem_filter.mpr ⟨hline, hclient⟩))
  · rw [hline, filter_append, filter_cons_of_pos hclient]
    exact h.order.append (refl _)
  · exact forall_mem_append.mpr ⟨h.clients, forall_mem_singleton.mpr hclient⟩

theorem addurl_run (h : Inv [] s) (hsettled : Settled s) (hclient : client url.addr)
    (hnew : url.addr ∉ s.added)
    (hfails : next_fails { s with waiting_urls := s.waiting_urls ++ [url] } = false) :
    ∃ s', addurl url s = some s' ∧ Inv [] s' ∧ Settled s' := by
  have hpipe : s.enable_pipelining = true → s.request_count < s.max_requests →
      (s.waiting_urls ++ [url]).length ≤ 1 := by
    intro hpipe hroom
    cases hwaiting : s.waiting_urls with
    | nil => exact le_rfl
    | cons first rest =>
      exact absurd (hsettled hpipe (by simp [hwaiting])) (not_le.mpr hroom)
  obtain ⟨s', hs', hinv, hsettled', -⟩ := request_next_spec closes_close (h.addurl hclient hnew)
    (fun hne => absurd rfl hne) hpipe hfails
  exact ⟨s', hs', hinv, hsettled'⟩

theorem upload_run (h : Inv [] s) (hsettled : Settled s) (hover : overrun s .upload = false) :
    ∃ s', upload s = some s' ∧ Inv [] s' ∧ Settled s' := by
  unfold upload
  cases hurls : s.urls with
  | nil => exact ⟨s, rfl, h, hsettled⟩
  | cons url urls =>
    by_cases hread : !s.sent_url_request && url.putstream
    · have hroom : s.request_count < s.max_requests := by
        simpa [overrun, hurls, hread] using hover
      have hline : line [] { s with urls := ⟨url.addr, false, fun _ => rfl⟩ :: urls } =
          line [] s := by
        rw [line, line, hurls]
        rfl
      have hinv : Inv [] { s with urls := ⟨url.addr, false, fun _ => rfl⟩ :: urls } := by
        refine ⟨hline ▸ h.nodup, hline ▸ h.order, h.clients, hline ▸ h.fresh, hline ▸ h.tested,
          fun curl hcurl => ?_, h.count, h.bound, fun hpipe => ?_⟩
        · have hhead := h.active curl hcurl
          rw [hurls] at hhead
          exact hhead
        · have hsingle := h.single hpipe
          rw [hurls] at hsingle
          exact hsingle
      -- the request is no test
      have hclient : url.addr.pipeline_test = false := by
        by_contra htest
        have hnone := url.no_putstream (Bool.of_not_eq_false htest)
        rw [hnone, Bool.and_false] at hread
        cases hread
      have hbad : strands { s with
          urls := ⟨url.addr, false, fun _ => rfl⟩ :: urls, err := true } = false := by
        cases urls <;> simp [strands, bad_test, hclient]
      have hcount := h.count
      obtain ⟨s', hs', hinv', -, hset⟩ := send_request_spec closes_close hinv url.addr
        (fun _ => by
          show (s.sent.filter client).length < s.max_requests.toNat
          omega)
        fun _ _ => ⟨hsettled, hbad, fun hne => absurd rfl hne⟩
      exact ⟨s', (if_pos hread).trans hs', hinv', hset hsettled⟩
    · exact ⟨s, if_neg hread, h, hsettled⟩

theorem doneurl_run (h : Inv [] s) (hsettled : Settled s) (hcurl : s.curl.isSome)
    (hstrands : done_strands s = false) :
    ∃ s', doneurl s = some s' ∧ Inv [] s' ∧ Settled s' ∧ ∀ curl ∈ s.curl, curl ∈ s'.finished := by
  rw [done_strands, Bool.or_eq_false_iff] at hstrands
  obtain ⟨s', hs', hinv, hsettled', -, hmem⟩ := doneurl_spec h hcurl hsettled
    (fun hne => absurd rfl hne) (fun herr hbad => by simpa [herr, hbad] using hstrands.1)
    hstrands.2
  exact ⟨s', hs', hinv, hsettled', hmem⟩

theorem body_read_run (h : Inv [] s) (hsettled : Settled s) (hcurl : s.curl.isSome)
    (hok : s.isok) (hstrands : done_strands s = false) (hbad : bad_answer s = false)
    (hfails : (s.fails.any id && (s.urls.tail.isEmpty || s.pipeline_test_count == 0)) = false) :
    ∃ s', body_read s = some s' ∧ Inv [] s' ∧ Settled s' := by
  obtain ⟨curl, hc⟩ := isSome_iff_exists.mp hcurl
  obtain ⟨url, urls, hurls, rfl⟩ := h.first hc
  obtain ⟨t, ht, hinv, hsettled', -⟩ := doneurl_run h hsettled hcurl hstrands
  have hmoored : Moored t := by
    refine doneurl_moored hok hc hurls hbad (fun hany => ?_) ht
    rw [hany, hurls, Bool.true_and, Bool.or_eq_false_iff] at hfails
    exact ⟨by simpa using hfails.1, by simpa using hfails.2⟩
  unfold body_read
  rcases hmoored with ⟨hokay, -⟩ | ⟨hclosed, hactive, hnone⟩
  · exact ⟨t, by rw [ht, bind_some, if_pos hokay], hinv, hsettled'⟩
  · -- another request has been taken for the active one
    obtain ⟨s', hs', hinv', hdone, -⟩ := doneurl_run hinv hsettled' hactive
      (by simp [done_strands, next_fails, hnone])
    exact ⟨s', by rw [ht, bind_some, if_neg (by simp [hclosed]), hs'], hinv', hdone⟩

theorem Inv.unlink {url : Addr} (h : Inv [] s) (hcurl : s.curl ≠ some url) :
    Inv [] { s with
      waiting_urls := s.waiting_urls.eraseP fun u => decide (u.addr = url),
      urls := s.urls.eraseP fun u => decide (u.addr = url) } := by
  have hsub : (line [] { s with
      waiting_urls := s.waiting_urls.eraseP fun u => decide (u.addr = url),
      urls := s.urls.eraseP fun u => decide (u.addr = url) }).Sublist (line [] s) :=
    (refl s.finished).append
      ((eraseP_sublist.map _).append (eraseP_sublist.map _))
  refine ⟨h.nodup.sublist hsub, (hsub.filter client).trans h.order, h.clients,
    fun n hn => h.fresh n (hsub.subset hn), fun n hn => h.tested n (hsub.subset hn),
    fun curl hactive => ?_, h.count, h.bound, fun hpipe => ?_⟩
  · obtain ⟨first, urls, hurls, rfl⟩ := h.first hactive
    have hne : ¬decide (first.addr = url) := by
      intro heq
      exact hcurl (of_decide_eq_true heq ▸ hactive)
    show ((s.urls.eraseP _).map WvUrlRequest.addr).head? = _
    rw [hurls, eraseP_cons_of_neg (by exact hne)]
    rfl
  · exact (Nat.add_le_add_right eraseP_sublist.length_le _).trans (h.single hpipe)

theorem delurl_run {url : Addr} (h : Inv [] s) (hsettled : Settled s)
    (hstrands : (decide (s.curl = some url) && done_strands s) = false) :
    ∃ s', delurl url s = some s' ∧ Inv [] s' ∧ Settled s' := by
  obtain ⟨t, ht, hinv, hsettled', hcurl⟩ : ∃ t,
      (if s.curl = some url then doneurl s else some s) = some t ∧ Inv [] t ∧ Settled t ∧
        t.curl ≠ some url := by
    by_cases hcurl : s.curl = some url
    · obtain ⟨t, ht, hinv, hsettled', hmem⟩ := doneurl_run h hsettled (by rw [hcurl]; rfl)
        (by simpa [hcurl] using hstrands)
      refine ⟨t, (if_pos hcurl).trans ht, hinv, hsettled', fun hactive => ?_⟩
      -- the first request would have been done before
      obtain ⟨first, urls, hurls, rfl⟩ := hinv.first hactive
      have hnodup := hinv.nodup
      rw [line, hurls, nodup_append] at hnodup
      exact hnodup.2.2 _ (hmem _ hcurl) _ mem_cons_self rfl
    · exact ⟨s, if_neg hcurl, h, hsettled, hcurl⟩
  refine ⟨_, by rw [delurl, ht, map_some], hinv.unlink hcurl, fun hpipe hne => ?_⟩
  apply hsettled' hpipe
  intro hnil
  exact hne (by simp [hnil])

theorem machine_step {i : Op × List Bool} (h : Inv [] s) (hsettled : Settled s) (hlegal : Legal s i)
    (hcareful : Careful s i) :
    ∃ s' o, machine.step s i = some (s', o) ∧ Inv [] s' ∧ Settled s' := by
  obtain ⟨s', hs', hinv⟩ : ∃ s', Option.map Prod.fst (machine.step s i) = some s' ∧
      Inv [] s' ∧ Settled s' := by
    obtain ⟨hstrands, hover, hlost⟩ := hcareful
    simp only [machine, Option.map_map]
    obtain ⟨op, fails⟩ := i
    cases op with
    | addurl url =>
      simpa [comp_def] using
        addurl_run (s := { s with fails }) h.congr hsettled hlegal.1 hlegal.2 hstrands
    | delurl url =>
      simpa [comp_def] using delurl_run (s := { s with fails }) h.congr hsettled hstrands
    | response line => exact ⟨_, rfl, h.congr, hsettled⟩
    | data =>
      by_cases hcurl : s.curl.isSome
      · simpa [comp_def, hcurl] using ⟨h, hsettled⟩
      · cases hurls : s.urls with
        | nil =>
          have hsafe : (!s.err && strands { s with err := true }) = false := by
            have hnone : s.curl.isNone = true := by simpa using hcurl
            rw [stranding, hnone, hurls] at hstrands
            rw [hurls]
            exact hstrands
          simpa [comp_def, hcurl, hurls] using
            seterr_run (s := { s with fails }) h.congr hsettled hsafe
        | cons url urls =>
          refine ⟨{ s with curl := s.urls.head?.map WvUrlRequest.addr }, ?_,
            h.activate fun addr haddr => ?_, hsettled⟩
          · simp [hcurl, hurls]
          · rw [head?_map]
            exact haddr
    | complete =>
      by_cases hcurl : s.curl.isSome
      · obtain ⟨s', hs', hinv, hsettled', -⟩ := doneurl_run (s := { s with fails }) h.congr
          hsettled hcurl (by simpa [stranding, hcurl] using hstrands)
        exact ⟨s', by simp [hcurl, hs'], hinv, hsettled'⟩
      · simpa [comp_def, hcurl] using ⟨h, hsettled⟩
    | body_read =>
      by_cases hboth : s.curl.isSome && s.isok
      · obtain ⟨hcurl, hok⟩ := Bool.and_eq_true_iff.mp hboth
        rw [lost, hboth, Bool.true_and, Bool.or_eq_false_iff] at hlost
        obtain ⟨s', hs', hinv⟩ := body_read_run (s := { s with fails }) h.congr hsettled hcurl hok
          (by simpa [stranding, hcurl, hok] using hstrands) hlost.1 hlost.2
        exact ⟨s', by simp [hcurl, hok, hs'], hinv⟩
      · exact ⟨s, by simp [hboth], h, hsettled⟩
    | head_end err =>
      have hend : (s.curl.isSome && s.isok) = false := hlost
      exact ⟨s, by simp only [hend, Bool.false_eq_true, if_false]; rfl, h, hsettled⟩
    | upload =>
      simpa [comp_def] using upload_run (s := { s with fails }) h.congr hsettled hover
    | outstream_closed => exact ⟨_, rfl, h.congr, hsettled⟩
    | seterr =>
      simpa [comp_def] using seterr_run (s := { s with fails }) h.congr hsettled hstrands
    | close =>
      simpa [comp_def] using close_run (s := { s with fails }) h.congr hsettled hstrands
  obtain ⟨⟨_, o⟩, hstep, rfl⟩ := Option.map_eq_some_iff.mp hs'
  exact ⟨_, o, hstep, hinv⟩

end WvHttpStream

end WvStreams.HttpQueues
