import WvStreams.Strings.TclList
import WvStreams.UniConf.Wire.ClientConn

/-!
# Messages on a connection

A message is found in the lines of the connection if and only if the whole of it is there
(`readmsg_spec`). So whoever handles the messages of a stream one by one, whenever it likes,
handles each of them once and in order, whatever parts the stream arrives in (`run_framed`).
-/

namespace WvStreams

open List

namespace UniClientConn

/-- A connection that has only whole lines in its message buffer. -/
structure Reading (c : UniClientConn) : Prop where
  isok : c.isok = true
  lined : Lined c.msgbuf
  nul : (0 : Byte) ∉ c.inbuf

variable {c c' : UniClientConn}

theorem Reading.getline_some {line : Str} (h : c.Reading) (hline : c.getline = (some line, c')) :
    Reading { c' with msgbuf := c'.msgbuf ++ cstr line ++ [newline] } ∧
      c'.msgbuf ++ cstr line ++ [newline] ++ c'.inbuf = c.msgbuf ++ c.inbuf := by
  unfold getline at hline
  split at hline
  · rename_i hmem
    obtain ⟨hsome, rfl⟩ := Prod.mk.inj hline
    obtain rfl := Option.some.inj hsome
    have happ := takeWhile_append_dropWhile (p := fun b => decide (b ≠ newline)) (l := c.inbuf)
    have hdrop : c.inbuf.dropWhile (· ≠ newline) =
        newline :: (c.inbuf.dropWhile (· ≠ newline)).tail := by
      cases hrest : c.inbuf.dropWhile (· ≠ newline) with
      | nil =>
        have hall := dropWhile_eq_nil_iff.mp hrest newline hmem
        simp at hall
      | cons b rest =>
        have hb := head?_dropWhile_not (fun b => decide (b ≠ newline)) c.inbuf
        rw [hrest] at hb
        have hnl : b = newline := by simpa using hb
        rw [hnl, tail_cons]
    have hcstr : cstr (c.inbuf.takeWhile (· ≠ newline)) = c.inbuf.takeWhile (· ≠ newline) :=
      cstr_of_not_mem fun h0 => h.nul ((List.takeWhile_prefix _).subset h0)
    rw [hdrop] at happ
    refine ⟨⟨h.isok, lined_concat _, fun h0 => h.nul ?_⟩, ?_⟩
    · exact (dropWhile_suffix _).subset (mem_of_mem_tail h0)
    · rw [hcstr, append_assoc, append_assoc, singleton_append, happ]
  · rw [if_pos (.inl h.isok)] at hline
    cases hline

theorem Reading.getline_none (h : c.Reading) (hline : c.getline = (none, c')) :
    c' = c ∧ newline ∉ c.inbuf := by
  unfold getline at hline
  split at hline
  · cases hline
  · rename_i hmem
    rw [if_pos (.inl h.isok)] at hline
    exact ⟨(Prod.mk.inj hline).2.symm, hmem⟩

theorem readmsg_of_found {word rest : Str}
    (h : wvtclGetword wvtclNastyNewlines false c.msgbuf = some (word, rest)) :
    c.readmsg = (some word, { c with msgbuf := rest }) := by
  rw [readmsg, h]

theorem readmsg_of_line {line : Str} (h : wvtclGetword wvtclNastyNewlines false c.msgbuf = none)
    (hline : c.getline = (some line, c')) :
    c.readmsg = readmsg { c' with msgbuf := c'.msgbuf ++ cstr line ++ [newline] } := by
  rw [readmsg, h]
  dsimp only
  split
  · rename_i h'
    rw [hline] at h'
    cases h'
    rfl
  · rename_i h'
    rw [hline] at h'
    cases h'

theorem readmsg_of_none (h : wvtclGetword wvtclNastyNewlines false c.msgbuf = none)
    (hline : c.getline = (none, c')) :
    c.readmsg = (none, if c'.isok then c' else { c' with msgbuf := [] }) := by
  rw [readmsg, h]
  dsimp only
  split
  · rename_i h'
    rw [hline] at h'
    cases h'
  · rename_i h'
    rw [hline] at h'
    cases h'
    rfl

/-- The message that is found is the first one of all the bytes, whatever is still to come. If
there is none, then there is none in the whole lines that have come. -/
theorem readmsg_spec (h : c.Reading) :
    c.readmsg.2.Reading ∧ match c.readmsg.1 with
      | some word => ∀ more, wvtclGetword wvtclNastyNewlines false (c.msgbuf ++ c.inbuf ++ more) =
          some (word, c.readmsg.2.msgbuf ++ c.readmsg.2.inbuf ++ more)
      | none => c.readmsg.2.msgbuf ++ c.readmsg.2.inbuf = c.msgbuf ++ c.inbuf ∧
          newline ∉ c.readmsg.2.inbuf ∧
          wvtclGetword wvtclNastyNewlines false c.readmsg.2.msgbuf = none := by
  induction hn : c.inbuf.length using Nat.strong_induction_on generalizing c with
  | _ n ih =>
    subst hn
    cases hword : wvtclGetword wvtclNastyNewlines false c.msgbuf with
    | some r =>
      obtain ⟨word, rest⟩ := r
      obtain ⟨hne, hlined⟩ := wvtclGetword_lined newline_splits hword h.lined
      rw [readmsg_of_found hword]
      refine ⟨⟨h.isok, hlined, h.nul⟩, fun more => ?_⟩
      rw [append_assoc, wvtclGetword_more hword hne, ← append_assoc]
    | none =>
      cases hline : c.getline with
      | mk line c' =>
        cases line with
        | some line =>
          obtain ⟨hreading, htext⟩ := h.getline_some hline
          have hrest := ih _ (getline_length hline) hreading rfl
          rw [readmsg_of_line hword hline]
          rw [htext] at hrest
          exact hrest
        | none =>
          obtain ⟨rfl, hmem⟩ := h.getline_none hline
          rw [readmsg_of_none hword hline, if_pos h.isok]
          exact ⟨h, rfl, hmem, hword⟩

/-- A text that the scanner takes for one message. -/
structure Framed (text : Str) : Prop where
  ne_nil : text ≠ []
  head : ∀ c ∈ text.head?, wvtclNastyNewlines.set c = false ∧ c ≠ quote
  passes : Passes wvtclNastyNewlines text
  nul : (0 : Byte) ∉ text

section Messages

variable {α : Type} (text : α → Str)

def lines (ms : List α) : Str := ms.flatMap fun m => text m ++ [newline]

theorem lined_lines (ms : List α) : Lined (lines text ms) := by
  rcases eq_nil_or_concat ms with rfl | ⟨ms, m, rfl⟩
  · exact .inl rfl
  · right
    simp [lines]

theorem lines_append (ms more : List α) :
    lines text (ms ++ more) = lines text ms ++ lines text more := flatMap_append

variable {ms : List α} {c : UniClientConn} {undelivered : Str}

theorem nul_notMem_lines (hms : ∀ m ∈ ms, Framed (text m)) : (0 : Byte) ∉ lines text ms := by
  intro h0
  obtain ⟨m, hm, h0⟩ := mem_flatMap.mp h0
  rcases mem_append.mp h0 with h0 | h0
  · exact (hms m hm).nul h0
  · exact absurd (mem_singleton.mp h0) (by decide)

/-- The messages are those that the connection has still to read, where some of their bytes are
not delivered yet. The newline behind the last one that was read may still be there. -/
structure Tracks (ms : List α) (undelivered : Str) (c : UniClientConn) : Prop where
  reading : c.Reading
  nul : (0 : Byte) ∉ undelivered
  text : ∃ lead, (lead = [] ∨ lead = [newline]) ∧
    c.msgbuf ++ c.inbuf ++ undelivered = lead ++ lines text ms

variable {text}

theorem Tracks.deliver {chunk : Str} (h : Tracks text ms (chunk ++ undelivered) c) :
    Tracks text ms undelivered (c.deliver chunk) := by
  obtain ⟨hchunk, hrest⟩ := not_or.mp fun h0 => h.nul (mem_append.mpr h0)
  refine ⟨⟨h.reading.isok, h.reading.lined, ?_⟩, hrest, ?_⟩
  · intro h0
    exact (mem_append.mp h0).elim h.reading.nul hchunk
  · obtain ⟨lead, hlead, htext⟩ := h.text
    refine ⟨lead, hlead, ?_⟩
    rw [← htext]
    simp [UniClientConn.deliver]

theorem Tracks.append {more : List α} (hmore : ∀ m ∈ more, Framed (text m))
    (h : Tracks text ms undelivered c) :
    Tracks text (ms ++ more) (undelivered ++ lines text more) c := by
  obtain ⟨lead, hlead, htext⟩ := h.text
  refine ⟨h.reading, ?_, lead, hlead, ?_⟩
  · intro h0
    exact (mem_append.mp h0).elim h.nul (nul_notMem_lines text hmore)
  · rw [← append_assoc, htext, lines_append, append_assoc]

theorem getword_lines {m : α} (h : Framed (text m)) {lead : Str}
    (hlead : lead = [] ∨ lead = [newline]) (ms : List α) :
    wvtclGetword wvtclNastyNewlines false (lead ++ lines text (m :: ms)) =
      some (text m, newline :: lines text ms) := by
  have hsplit : ∀ c ∈ lead, wvtclNastyNewlines.set c = true := by
    rcases hlead with rfl | rfl
    · simp
    · simp [newline_splits]
  have htext : lines text (m :: ms) = text m ++ newline :: lines text ms := by simp [lines]
  rw [htext]
  exact wvtclGetword_passes hsplit h.ne_nil h.head h.passes newline_splits (by decide) _

theorem Tracks.readmsg (hms : ∀ m ∈ ms, Framed (text m)) (h : Tracks text ms undelivered c) :
    (c.readmsg.1 = none ∧ Tracks text ms undelivered c.readmsg.2 ∧ (undelivered = [] → ms = [])) ∨
      ∃ m rest, ms = m :: rest ∧ c.readmsg.1 = some (text m) ∧
        Tracks text rest undelivered c.readmsg.2 := by
  obtain ⟨lead, hlead, htext⟩ := h.text
  obtain ⟨hreading, hspec⟩ := readmsg_spec h.reading
  have hnone : wvtclGetword wvtclNastyNewlines false (lead ++ lines text []) = none := by
    apply wvtclGetword_splits
    rcases hlead with rfl | rfl
    · simp [lines]
    · simp [lines, newline_splits]
  cases hword : c.readmsg.1 with
  | none =>
    rw [hword] at hspec
    obtain ⟨hsame, hmem, hgetword⟩ := hspec
    refine .inl ⟨rfl, ⟨hreading, h.nul, lead, hlead, hsame ▸ htext⟩, ?_⟩
    rintro rfl
    rw [append_nil] at htext
    -- all lines are in the message buffer
    have hlined : Lined (c.readmsg.2.msgbuf ++ c.readmsg.2.inbuf) := by
      rw [hsame, htext]
      rcases lined_lines text ms with hnil | hlast
      · rw [hnil, append_nil]
        rcases hlead with rfl | rfl
        · exact .inl rfl
        · exact .inr rfl
      · right
        rw [getLast?_append, hlast]
        rfl
    have hempty : c.readmsg.2.inbuf = [] := by
      rcases hlined.suffix with hnil | hlast
      · exact hnil
      · exact absurd (mem_of_getLast? hlast) hmem
    rw [hempty, append_nil] at hsame
    rw [hsame, htext] at hgetword
    cases ms with
    | nil => rfl
    | cons m rest =>
      rw [getword_lines (hms m mem_cons_self) hlead] at hgetword
      cases hgetword
  | some word =>
    rw [hword] at hspec
    have hfound := hspec undelivered
    rw [htext] at hfound
    cases ms with
    | nil =>
      rw [hnone] at hfound
      cases hfound
    | cons m rest =>
      rw [getword_lines (hms m mem_cons_self) hlead] at hfound
      obtain ⟨rfl, hrest⟩ := Prod.mk.inj (Option.some.inj hfound)
      exact .inr ⟨m, rest, rfl, rfl, hreading, h.nul, [newline], .inr rfl, hrest.symm⟩

end Messages

/-- What happens to a connection: bytes come in, or it is asked for a message. -/
inductive Event where
  | deliver (chunk : Str)
  | poll

def delivered (events : List Event) : Str :=
  events.flatMap fun
    | .deliver chunk => chunk
    | .poll => []

section Run

variable {α τ : Type} {text : α → Str} (handle : UniClientConn × τ → UniClientConn × τ)

def handleEvent (s : UniClientConn × τ) : Event → UniClientConn × τ
  | .deliver chunk => (s.1.deliver chunk, s.2)
  | .poll => handle s

def run (s : UniClientConn × τ) (events : List Event) : UniClientConn × τ :=
  events.foldl (handleEvent handle) s

/-- Nothing is done if there is no message. -/
def Waits : Prop := ∀ s, s.1.readmsg.1 = none → handle s = (s.1.readmsg.2, s.2)

/-- What a message does, and that it leaves the stream alone. -/
def Handles (text : α → Str) (effect : τ → α → τ) (m : α) : Prop :=
  ∀ s : UniClientConn × τ, s.1.readmsg.1 = some (text m) → (handle s).2 = effect s.2 m ∧
      ∃ payloadbuf, (handle s).1 = { s.1.readmsg.2 with payloadbuf := payloadbuf }

variable {handle} {effect : τ → α → τ}

variable {ms : List α} {undelivered : Str} {s : UniClientConn × τ}

theorem Tracks.with_payloadbuf {c : UniClientConn} (h : Tracks text ms undelivered c)
    (payloadbuf : Str) : Tracks text ms undelivered { c with payloadbuf := payloadbuf } :=
  ⟨⟨h.reading.isok, h.reading.lined, h.reading.nul⟩, h.nul, h.text⟩

theorem Tracks.poll (hms : ∀ m ∈ ms, Framed (text m)) (hwaits : Waits handle)
    (hhandles : ∀ m ∈ ms, Handles handle text effect m) (h : Tracks text ms undelivered s.1) :
    (s.1.readmsg.1 = none ∧ (undelivered = [] → ms = []) ∧
        Tracks text ms undelivered (handle s).1 ∧ (handle s).2 = s.2) ∨
      ∃ m rest, ms = m :: rest ∧ s.1.readmsg.1 = some (text m) ∧
        Tracks text rest undelivered (handle s).1 ∧ (handle s).2 = effect s.2 m := by
  rcases h.readmsg hms with ⟨hnone, htracks, hall⟩ | ⟨m, rest, rfl, htext, htracks⟩
  · rw [hwaits s hnone]
    exact .inl ⟨hnone, hall, htracks, rfl⟩
  · obtain ⟨heffect, payloadbuf, hconn⟩ := hhandles m mem_cons_self s htext
    rw [hconn, heffect]
    exact .inr ⟨m, rest, rfl, htext, htracks.with_payloadbuf payloadbuf, rfl⟩

theorem Tracks.polled (hms : ∀ m ∈ ms, Framed (text m)) (hwaits : Waits handle)
    (hhandles : ∀ m ∈ ms, Handles handle text effect m) (h : Tracks text ms undelivered s.1) :
    ∃ k ≤ ms.length, (ms ≠ [] → undelivered = [] → 0 < k) ∧
      Tracks text (ms.drop k) undelivered (handle s).1 ∧
      (handle s).2 = (ms.take k).foldl effect s.2 := by
  rcases h.poll hms hwaits hhandles with ⟨-, hall, htracks, heffect⟩ |
    ⟨m, rest, rfl, -, htracks, heffect⟩
  · exact ⟨0, Nat.zero_le _, fun hne hnil => absurd (hall hnil) hne, htracks, heffect⟩
  · exact ⟨1, by simp, by simp, htracks, heffect⟩

theorem Tracks.handled (hms : ∀ m ∈ ms, Framed (text m)) (hwaits : Waits handle)
    (hhandles : ∀ m ∈ ms, Handles handle text effect m) {events : List Event}
    (h : Tracks text ms (delivered events ++ undelivered) s.1) :
    ∃ k ≤ ms.length, Tracks text (ms.drop k) undelivered (run handle s events).1 ∧
      (run handle s events).2 = (ms.take k).foldl effect s.2 := by
  induction events generalizing ms s with
  | nil => exact ⟨0, Nat.zero_le _, h, rfl⟩
  | cons event events ih =>
    cases event with
    | deliver chunk =>
      have hchunk : Tracks text ms (chunk ++ (delivered events ++ undelivered)) s.1 := by
        simpa [delivered] using h
      exact ih hms hhandles (s := (s.1.deliver chunk, s.2)) hchunk.deliver
    | poll =>
      have hpoll : Tracks text ms (delivered events ++ undelivered) s.1 := h
      obtain ⟨j, hj, -, htracks, heffect⟩ := hpoll.polled hms hwaits hhandles
      obtain ⟨k, hk, hrest, hstate⟩ := ih (fun m hm => hms m (mem_of_mem_drop hm))
        (fun m hm => hhandles m (mem_of_mem_drop hm)) htracks
      rw [length_drop] at hk
      refine ⟨j + k, by omega, ?_, ?_⟩
      · rw [← drop_drop]
        exact hrest
      · show (run handle (handle s) events).2 = _
        rw [hstate, heffect, ← foldl_append, take_add]

/-- When all bytes are there, polling as often as there are messages handles them all. -/
theorem Tracks.drained (hms : ∀ m ∈ ms, Framed (text m)) (hwaits : Waits handle)
    (hhandles : ∀ m ∈ ms, Handles handle text effect m) (h : Tracks text ms [] s.1) {n : Nat}
    (hn : ms.length ≤ n) : (run handle s (replicate n .poll)).2 = ms.foldl effect s.2 := by
  induction n generalizing ms s with
  | zero =>
    obtain rfl := eq_nil_of_length_eq_zero (Nat.le_zero.mp hn)
    rfl
  | succ n ih =>
    obtain ⟨k, -, hpos, htracks, heffect⟩ := h.polled hms hwaits hhandles
    have hlen : (ms.drop k).length ≤ n := by
      by_cases hnil : ms = []
      · rw [hnil, drop_nil]
        exact Nat.zero_le n
      · have hk := hpos hnil rfl
        rw [length_drop]
        omega
    rw [replicate_succ]
    show (run handle (handle s) (replicate n .poll)).2 = _
    rw [ih (fun m hm => hms m (mem_of_mem_drop hm))
      (fun m hm => hhandles m (mem_of_mem_drop hm)) htracks hlen, heffect,
      ← foldl_append, take_append_drop]

/-- Whatever parts the bytes come in and whenever the connection is polled, each message is
handled once and in order: some of them while the bytes come in, the others in the end. -/
theorem run_framed (hms : ∀ m ∈ ms, Framed (text m)) (hwaits : Waits handle)
    (hhandles : ∀ m ∈ ms, Handles handle text effect m) (t : τ) {events : List Event}
    (hevents : delivered events = lines text ms) :
    (∃ k ≤ ms.length, (run handle ({}, t) events).2 = (ms.take k).foldl effect t) ∧
      ∀ n, ms.length ≤ n →
        (run handle ({}, t) (events ++ replicate n .poll)).2 = ms.foldl effect t := by
  have hstart : Tracks text ms (delivered events ++ []) {} := by
    rw [append_nil, hevents]
    exact ⟨⟨rfl, .inl rfl, not_mem_nil⟩, nul_notMem_lines text hms, [], .inl rfl, rfl⟩
  obtain ⟨k, hk, htracks, hstate⟩ := Tracks.handled hms hwaits hhandles (s := ({}, t)) hstart
  refine ⟨⟨k, hk, hstate⟩, fun n hn => ?_⟩
  have hlen : (ms.drop k).length ≤ n := by
    rw [length_drop]
    omega
  rw [UniClientConn.run, foldl_append]
  show (run handle (run handle ({}, t) events) (replicate n .poll)).2 = _
  rw [htracks.drained (fun m hm => hms m (mem_of_mem_drop hm)) hwaits
    (fun m hm => hhandles m (mem_of_mem_drop hm)) hlen, hstate, ← foldl_append, take_append_drop]

end Run

/-- The arguments of `writecmd`, where the payload has no newline outside of braces and escapes. -/
structure CommandLine where
  command : Command
  msg : WvString
  passes : ∀ s ∈ msg, Passes wvtclNastyNewlines s
  nul : ∀ s ∈ msg, (0 : Byte) ∉ s

namespace CommandLine

def payload (l : CommandLine) : Str := l.msg.elim [] fun msg => 32 :: msg

def text (l : CommandLine) : Str := l.command.name ++ l.payload

theorem writecmd_eq (l : CommandLine) : writecmd l.command l.msg = l.text ++ [newline] := by
  obtain ⟨command, msg, -, -⟩ := l
  cases msg with
  | none | some msg => simp [writecmd, text, payload]

theorem framed (l : CommandLine) : Framed l.text := by
  have hname : Passes wvtclNastyNewlines l.command.name := by
    apply passes_plain
    cases l.command <;> decide
  have hpayload : Passes wvtclNastyNewlines l.payload ∧ (0 : Byte) ∉ l.payload := by
    obtain ⟨command, msg, passes, nul⟩ := l
    cases msg with
    | none => exact ⟨fun _ _ => rfl, not_mem_nil⟩
    | some msg =>
      have hspace : Passes wvtclNastyNewlines [32] := passes_plain (by decide)
      refine ⟨hspace.append (passes msg rfl), fun h0 => ?_⟩
      rcases mem_cons.mp h0 with h0 | h0
      · exact absurd h0 (by decide)
      · exact nul msg rfl h0
  have hhead : ∃ c s, l.command.name = c :: s ∧ wvtclNastyNewlines.set c = false ∧ c ≠ quote := by
    cases l.command <;> exact ⟨_, _, rfl, by decide, by decide⟩
  obtain ⟨c, s, hcons, hset, hquote⟩ := hhead
  refine ⟨?_, ?_, hname.append hpayload.1, ?_⟩
  · rw [text, hcons]
    exact cons_ne_nil _ _
  · rw [text, hcons]
    intro d hd
    obtain rfl := Option.some.inj hd
    exact ⟨hset, hquote⟩
  · intro h0
    rcases mem_append.mp h0 with h0 | h0
    · revert h0
      cases l.command <;> decide
    · exact hpayload.2 h0

theorem name_written (cmd : Command) : ∃ w : Written wvtclNastySpaces,
    w.form.text = cmd.name ∧ w.form.value = cmd.name ∧ w.form.isQuoted = false ∧
      w.form.continued = false := by
  have hbare : (Form.bare cmd.name).Fits wvtclNastySpaces := by
    cases cmd <;> exact ⟨by decide, by decide⟩
  have hstarts : ∀ c ∈ cmd.name.head?, wvtclNastySpaces.set c = false := by
    cases cmd <;> decide
  exact ⟨⟨.bare cmd.name, hbare, hstarts⟩, rfl, rfl, rfl, rfl⟩

theorem getword_text (l : CommandLine) :
    wvtclGetword wvtclNastySpaces true l.text = some (l.command.name, l.payload) := by
  have hnone : ∀ c ∈ ([] : Str), wvtclNastySpaces.set c = true := by simp
  obtain ⟨w, htext, hvalue, hquoted, hcontinued⟩ := name_written l.command
  rw [text, ← htext, payload]
  cases l.msg with
  | none =>
    have hlast := (w.passed hquoted).getword_last hnone
    rw [hcontinued, if_neg Bool.false_ne_true, hvalue, ← htext] at hlast
    rw [Option.elim_none, append_nil]
    exact hlast
  | some msg =>
    have hitem := (w.passed hquoted).getword_item hnone (f := 32) (by decide) (by decide) msg
    rw [hvalue, ← htext] at hitem
    exact hitem

theorem readcmd {c : UniClientConn} {l : CommandLine} (h : c.readmsg.1 = some l.text) :
    c.readcmd = (.command l.command, some l.command.name,
      { c.readmsg.2 with payloadbuf := l.payload }) := by
  rw [UniClientConn.readcmd]
  generalize hread : c.readmsg = r at h
  obtain ⟨word, c'⟩ := r
  obtain rfl : word = some l.text := h
  dsimp only
  rw [readarg]
  rw [l.getword_text]
  dsimp only
  rw [findcmd_name]

end CommandLine

theorem readcmd_of_none (h : c.readmsg.1 = none) : c.readcmd = (.NONE, none, c.readmsg.2) := by
  rw [readcmd]
  generalize c.readmsg = r at h ⊢
  obtain ⟨word, c'⟩ := r
  obtain rfl : word = none := h
  rfl

end UniClientConn

end WvStreams
