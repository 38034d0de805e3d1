import WvStreams.UrlGet.FtpStream

/-!
# What is transferred

A download is over when the data connection was read to its end, whatever the moments are at which
bytes arrive. An upload is over after the first call, and is whole just if its source was readable
at every moment until its end (`right_iff_steady`).
-/

namespace WvStreams

open List

namespace Pipe

def content (s : Pipe) : Str := s.inbuf ++ s.rest

/-- The end of file was reached. -/
structure AtEnd (s : Pipe) : Prop where
  content : s.content = []
  ended : s.ended = true

def Sound (s : Pipe) : Prop := s.closed = true → s.AtEnd

structure Accepts (s : Pipe) : Prop where
  closed : s.closed = false
  stop_write : s.stop_write = false

/-- Whenever the stream is asked before its end of file, it is readable. -/
inductive ReadsOut : Pipe → Prop
  | ended {s : Pipe} (h : s.closed = true) : ReadsOut s
  | more {s : Pipe} (h : s.isreadable.2 = true) (hrest : ReadsOut (s.isreadable.1.read 1024).1) :
      ReadsOut s

/-- What a read has put into `buf`, and the stream behind it. -/
structure Gives (s : Pipe) (r : Pipe × Str) : Prop where
  sound : r.1.Sound
  content : r.2 ++ r.1.content = s.content
  given : r.1.given = s.given

@[simp] theorem pass_content (s : Pipe) : s.pass.content = s.content := rfl

variable {s : Pipe}

theorem Sound.pass (h : s.Sound) : s.pass.Sound := by
  intro hclosed
  obtain ⟨hcontent, hended⟩ := h hclosed
  refine ⟨hcontent, ?_⟩
  simp [Pipe.pass, hended]

theorem isreadable_open (h : s.isreadable.2 = true) : s.closed = false := by
  simp only [isreadable, isok, Bool.and_eq_true, Bool.not_eq_true'] at h
  exact h.1

theorem pass_arrived (h : s.pass.ended = true) : s.pass.arrived = s.rest.length := by
  simp only [Pipe.pass] at h ⊢
  rw [if_pos h]

theorem gives_uread (h : s.Sound) (hinbuf : s.inbuf = []) (most : Option Nat) (count : Nat) :
    Gives s (uread most count s.pass) := by
  unfold uread
  split
  · exact ⟨h.pass, rfl, rfl⟩
  · next hok =>
    have hopen : s.closed = false := by simpa [isok] using hok
    dsimp only
    split
    · -- closed now if everything has arrived and nothing was left
      refine ⟨?_, rfl, rfl⟩
      intro hclosed
      simp only [Bool.and_eq_true, beq_iff_eq] at hclosed
      obtain ⟨⟨hended, hzero⟩, -⟩ := hclosed
      rw [pass_arrived hended] at hzero
      refine ⟨?_, hended⟩
      simp [content, hinbuf, length_eq_zero_iff.mp hzero]
    · refine ⟨?_, ?_, rfl⟩
      · intro hclosed
        exact absurd (hclosed.symm.trans hopen) (by simp)
      · simp [content, hinbuf]

theorem gives_read (h : s.Sound) (count : Nat) : Gives s (s.read count) := by
  unfold read
  split
  · next hinbuf => exact gives_uread h hinbuf _ _
  · next hinbuf =>
    refine ⟨?_, ?_, rfl⟩
    · intro hclosed
      have hnil := (h hclosed).content
      exact absurd (append_eq_nil_iff.mp hnil).1 hinbuf
    · simp [content, ← append_assoc]

/-- What a loop has copied from one stream to the other. -/
structure Copied (source dest : Pipe) (r : Pipe × Pipe) : Prop where
  sound : r.1.Sound
  given : r.1.given = source.given
  accepts : r.2.Accepts
  copied : r.2.given ++ r.1.content = dest.given ++ source.content
  ended : r.1.ended = true → r.1.closed = true
  closed_iff : r.1.closed = true ↔ source.ReadsOut

theorem Accepts.writeSome {dest : Pipe} (h : dest.Accepts) (buf : Str) :
    (dest.writeSome buf).Accepts ∧ (dest.writeSome buf).given = dest.given ++ buf := by
  cases buf with
  | nil => exact ⟨h, by simp [Pipe.writeSome]⟩
  | cons c buf =>
    have hwrites : dest.writeSome (c :: buf) = { dest with given := dest.given ++ c :: buf } := by
      simp [Pipe.writeSome, Pipe.write, isok, h.closed, h.stop_write]
    rw [hwrites]
    exact ⟨⟨h.closed, h.stop_write⟩, rfl⟩

theorem copied_copyLoop (download : Bool) {source dest : Pipe} (hs : source.Sound)
    (hd : dest.Accepts) : Copied source dest (copyLoop download source dest) := by
  induction source, dest using copyLoop.induct download with
  | case1 source dest hmore ih =>
    rw [copyLoop, dif_pos hmore]
    have hready := (Bool.and_eq_true_iff.mp hmore).1
    have hgives : Gives source.pass (source.isreadable.1.read 1024) := gives_read hs.pass 1024
    obtain ⟨haccepts, hwritten⟩ := hd.writeSome (source.isreadable.1.read 1024).2
    have hloop := ih hgives.sound haccepts
    refine ⟨hloop.sound, hloop.given.trans hgives.given, hloop.accepts, ?_, hloop.ended, ?_⟩
    · rw [hloop.copied, hwritten, append_assoc, hgives.content, pass_content]
    · rw [hloop.closed_iff]
      constructor
      · exact .more hready
      · intro hreads
        cases hreads with
        | ended hclosed =>
          exact absurd (hclosed.symm.trans (isreadable_open hready)) (by simp)
        | more _ hrest => exact hrest
  | case2 source dest hdone =>
    rw [copyLoop, dif_neg hdone]
    have hidle : ¬ source.isreadable.2 = true := by
      intro hready
      apply hdone
      simp [hready, isok, hd.closed]
    refine ⟨hs.pass, rfl, hd, rfl, ?_, fun hclosed => .ended hclosed, ?_⟩
    · intro hended
      change source.pass.ended = true at hended
      by_contra hopen
      apply hidle
      simpa [Pipe.isreadable, isok, hended] using hopen
    · intro hreads
      cases hreads with
      | ended hclosed => exact hclosed
      | more hready _ => exact absurd hready hidle

end Pipe

namespace WvFtpStream

open Pipe (copied_copyLoop)

/-- A request for which nothing was done yet: the data connection will be a new one, and the
`outstream` is empty and stays open. -/
structure Request.Fresh (r : Request) : Prop where
  content_source : r.content_source = r.putstream
  source_sound : ∀ source ∈ r.putstream, source.Sound
  outstream : r.outstream.Accepts
  empty : r.outstream.given = []
  remote : r.remote.Accepts
  remote_empty : r.remote.given = []

/-- The destination was given what the source had, and the source was read to its end. -/
def Done.Right (d : Done) : Prop :=
  match d.request.content_source with
  | some source => d.data.given = source.content ∧ ∀ p ∈ d.request.putstream, p.AtEnd
  | none => d.request.outstream.given = d.request.remote.content ∧ d.data.AtEnd

/-- The source of an upload is readable whenever it is asked, until its end of file. -/
def Request.Steady (r : Request) : Prop := ∀ source ∈ r.content_source, source.ReadsOut

/-- A download that has begun. -/
structure Underway (r : Request) (data : Pipe) : Prop where
  content_source : r.content_source = none
  putstream : r.putstream = none
  outstream : r.outstream.Accepts
  sound : data.Sound
  split : r.outstream.given ++ data.content = r.remote.content

/-- What holds of the requests behind the first one and of those that are finished. -/
structure Others (s : WvFtpStream) : Prop where
  waiting : ∀ r ∈ s.waiting_urls, r.Fresh
  tail : ∀ r ∈ s.urls.tail, r.Fresh
  finished : ∀ d ∈ s.finished, d.Right ↔ d.request.Steady

/-- What holds between the calls. -/
structure Inv (s : WvFtpStream) : Prop extends Others s where
  idle : s.curl = false → ∀ r ∈ s.urls.head?, r.Fresh
  busy : s.curl = true → ∃ r data, s.urls.head? = some r ∧ s.data = some data ∧ Underway r data

theorem request_next_cases (s : WvFtpStream) :
    s.request_next = s ∨ ∃ url waiting_urls, s.waiting_urls = url :: waiting_urls ∧ s.urls = [] ∧
      s.request_next = { s with
        waiting_urls := waiting_urls
        request_count := s.request_count + 1
        urls := [url] } := by
  unfold request_next
  split
  · exact .inl rfl
  · next url waiting_urls hwaiting =>
    split
    · exact .inl rfl
    · split
      · exact .inl rfl
      · next hurls =>
        exact .inr ⟨url, waiting_urls, hwaiting, by simpa using hurls, rfl⟩

variable {s : WvFtpStream} {url : Request}

theorem Inv.request_next (h : Inv s) : Inv s.request_next := by
  rcases s.request_next_cases with hsame | ⟨url, waiting_urls, hwaiting, hurls, hnext⟩
  · exact hsame.symm ▸ h
  · rw [hnext]
    have hfresh := h.waiting
    rw [hwaiting] at hfresh
    refine ⟨⟨?_, by simp, h.finished⟩, ?_, ?_⟩
    · intro r hr
      exact hfresh r (mem_cons_of_mem _ hr)
    · intro _ r hr
      rw [← Option.some.inj hr]
      exact hfresh url mem_cons_self
    · intro hcurl
      obtain ⟨r, data, hhead, -⟩ := h.busy hcurl
      simp [hurls] at hhead

theorem Inv.addurl (h : Inv s) (hurl : url.Fresh) : Inv (s.addurl url) := by
  apply Inv.request_next
  refine ⟨⟨?_, h.tail, h.finished⟩, h.idle, h.busy⟩
  exact forall_mem_append.mpr ⟨h.waiting, forall_mem_singleton.mpr hurl⟩

theorem Inv.close (h : Inv s) (hurls : s.urls = []) : Inv s.close := by
  refine ⟨⟨h.waiting, h.tail, h.finished⟩, ?_, by simp [WvFtpStream.close]⟩
  intro _ r hr
  simp [WvFtpStream.close, hurls] at hr

theorem Others.doneurl (h : Others s) {data : Pipe} (hright : Done.Right ⟨url, data⟩ ↔ url.Steady) :
    Inv (s.doneurl url data) := by
  have hnext : Inv (WvFtpStream.request_next { s with
      finished := s.finished ++ [⟨url, data⟩]
      curl := false
      data := none
      urls := s.urls.tail }) := by
    apply Inv.request_next
    refine ⟨⟨h.waiting, ?_, ?_⟩, ?_, by simp⟩
    · intro r hr
      exact h.tail r (mem_of_mem_tail hr)
    · exact forall_mem_append.mpr ⟨h.finished, forall_mem_singleton.mpr hright⟩
    · intro _ r hr
      exact h.tail r (mem_of_mem_head? hr)
  unfold WvFtpStream.doneurl
  dsimp only
  split
  · next hempty => exact hnext.close (isEmpty_iff.mp (Bool.and_eq_true_iff.mp hempty).1)
  · exact hnext

theorem Others.download (h : Others s) (hcurl : s.curl = true) {data : Pipe}
    (hurl : Underway url data) : Inv (s.transfer url data) := by
  have hloop := copied_copyLoop true hurl.sound hurl.outstream
  have hsplit := hloop.copied.trans hurl.split
  simp only [transfer, hurl.putstream]
  split
  · next hclosed =>
    apply Others.doneurl ⟨h.waiting, h.tail, h.finished⟩
    have hat : (copyLoop true data url.outstream).1.AtEnd := by
      apply hloop.sound
      simpa [Pipe.isok] using hclosed
    rw [hat.content, append_nil] at hsplit
    constructor
    · intro _ source hsource
      simp [hurl.content_source] at hsource
    · intro _
      simp only [Done.Right, hurl.content_source]
      exact ⟨hsplit, hat⟩
  · refine ⟨⟨h.waiting, h.tail, h.finished⟩, ?_, ?_⟩
    · intro hidle
      exact absurd (hcurl.symm.trans hidle) (by simp)
    · intro _
      exact ⟨_, _, rfl, rfl, hurl.content_source, rfl, hloop.accepts, hloop.sound, hsplit⟩

theorem Others.upload (h : Others s) {source : Pipe} (hurl : url.Fresh)
    (hsource : url.putstream = some source) : Inv (s.transfer url url.remote) := by
  have hloop := copied_copyLoop false (hurl.source_sound source hsource) hurl.remote
  have hcopied := hloop.copied
  simp only [hurl.remote_empty, nil_append] at hcopied
  have hcontent := hurl.content_source.trans hsource
  have hopen : (copyLoop false source url.remote).2.isok = true := by
    simp [Pipe.isok, hloop.accepts.closed]
  have hclosed : (copyLoop false source url.remote).1.close.isok = false := by
    simp [Pipe.isok, Pipe.close]
  simp only [transfer, hsource, hopen, hclosed, Bool.not_true, Bool.not_false, Bool.or_true,
    if_true]
  apply Others.doneurl ⟨h.waiting, h.tail, h.finished⟩
  simp only [Done.Right, Request.Steady, hcontent, Option.mem_some_iff, forall_eq']
  rw [← hloop.closed_iff]
  constructor
  · intro hright
    exact hloop.ended hright.2.ended
  · intro hend
    have hat := hloop.sound hend
    rw [hat.content, append_nil] at hcopied
    exact ⟨hcopied, hat.content, hat.ended⟩

theorem Request.Fresh.underway {r : Request} (h : r.Fresh) (hget : r.putstream = none) :
    Underway r r.remote := by
  refine ⟨h.content_source.trans hget, hget, h.outstream, ?_, by rw [h.empty, nil_append]⟩
  intro hclosed
  exact absurd (hclosed.symm.trans h.remote.closed) (by simp)

theorem Inv.execute (h : Inv s) (timed_out : Bool) : Inv (s.execute timed_out) := by
  cases timed_out with
  | true =>
    simp only [WvFtpStream.execute, if_true]
    split
    · next hempty => exact h.close (isEmpty_iff.mp hempty)
    · exact h
  | false =>
    simp only [WvFtpStream.execute, Bool.false_eq_true, if_false]
    cases hcurl : s.curl with
    | true =>
      obtain ⟨url, data, hhead, hdata, hurl⟩ := h.busy hcurl
      obtain ⟨urls, hurls⟩ := head?_eq_some_iff.mp hhead
      have hstart : s.start = s := by
        simp [start, hurls, hcurl]
      simp only [hstart, hcurl, hurls, hdata]
      exact h.toOthers.download hcurl hurl
    | false =>
      cases hurls : s.urls with
      | nil =>
        have hstart : s.start = s := by
          simp [start, hurls]
        simp only [hstart, hcurl]
        exact h
      | cons url urls =>
        have hurl : url.Fresh := h.idle hcurl url (by simp [hurls])
        have hstart : s.start = { s with curl := true, data := some url.remote } := by
          simp [start, hurls, hcurl]
        have hothers : Others { s with curl := true, data := some url.remote } :=
          ⟨h.waiting, h.tail, h.finished⟩
        simp only [hstart, hurls]
        rw [hurls] at hothers
        cases hput : url.putstream with
        | none => exact hothers.download rfl (hurl.underway hput)
        | some source => exact hothers.upload hurl hput

theorem Inv.call (h : Inv s) {c : Call} (hc : ∀ url, c = .addurl url → url.Fresh) :
    Inv (s.call c) := by
  cases c with
  | addurl url => exact h.addurl (hc url rfl)
  | execute timed_out => exact h.execute timed_out

theorem inv_foldl (h : Inv s) {calls : List Call}
    (hcalls : ∀ url, .addurl url ∈ calls → url.Fresh) : Inv (calls.foldl call s) := by
  induction calls generalizing s with
  | nil => exact h
  | cons c calls ih =>
    apply ih
    · apply h.call
      intro url hc
      exact hcalls url (hc ▸ mem_cons_self)
    · intro url hurl
      exact hcalls url (mem_cons_of_mem c hurl)

theorem inv_new (max_requests : Nat) : Inv { max_requests := max_requests } :=
  ⟨⟨by simp, by simp, by simp⟩, by simp, by simp⟩

/-- Each download is right, and an upload just if its source was readable until its end. -/
theorem right_iff_steady (max_requests : Nat) (calls : List Call)
    (hcalls : ∀ url, .addurl url ∈ calls → url.Fresh) :
    ∀ d ∈ (calls.foldl call { max_requests := max_requests }).finished,
      d.Right ↔ d.request.Steady :=
  (inv_foldl (inv_new max_requests) hcalls).finished

def upload (source : Pipe) : Request := ⟨some source, some source, {}, {}⟩

def uploading (source : Pipe) : List Call := [.addurl (upload source), .execute false]

theorem fresh_uploading {source : Pipe} (h : source.closed = false) (url : Request)
    (hurl : .addurl url ∈ uploading source) : url.Fresh := by
  simp only [uploading, mem_cons, Call.addurl.injEq, reduceCtorEq, not_mem_nil, or_false] at hurl
  subst hurl
  refine ⟨rfl, ?_, ⟨rfl, rfl⟩, rfl, ⟨rfl, rfl⟩, rfl⟩
  intro s hs hclosed
  rw [← Option.some.inj hs] at hclosed
  exact absurd (hclosed.symm.trans h) (by simp)

def late : Pipe := { rest := [120], moments := [{}, { more := 1, ended := true }] }

open WvFtpStream

theorem mem_finished_late : (⟨⟨some late, some late.pass.close, {}, {}⟩, Pipe.close {}⟩ : Done) ∈
    ((uploading late).foldl call { max_requests := 1 }).finished := by
  have hidle : copyLoop false late {} = (late.pass, {}) := by
    rw [copyLoop, dif_neg (by decide)]
    rfl
  simp [uploading, upload, call, addurl, execute, request_next, start,
    transfer, hidle, doneurl, close, Pipe.isok, Pipe.close]

theorem right_iff_steady_late : ∃ d ∈ ((uploading late).foldl call { max_requests := 1 }).finished,
      d.Right ↔ d.request.Steady :=
  ⟨_, mem_finished_late,
    right_iff_steady 1 (uploading late) (fresh_uploading rfl) _ mem_finished_late⟩

/-- An empty file is left on the server. -/
theorem not_right :
    ¬ ∀ (max_requests : Nat) (calls : List Call), (∀ url, .addurl url ∈ calls → url.Fresh) →
      ∀ d ∈ (calls.foldl call { max_requests := max_requests }).finished, d.Right := by
  intro h
  have hright := h 1 (uploading late) (fresh_uploading rfl) _ mem_finished_late
  exact cons_ne_nil 120 [] hright.1.symm

end WvFtpStream

end WvStreams
