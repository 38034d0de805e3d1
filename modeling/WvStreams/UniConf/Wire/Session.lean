import WvStreams.Lib.Machine
import WvStreams.UniConf.Wire.Replies

/-!
# A client and its daemon

The two ends of a connection take their steps in any order, and the bytes between them arrive in
any parts. A call that waits returns what its own request came to in the tree of the daemon
(`answers_own`), unless it comes after a bulk set: the daemon answers to each line of that, and the
client takes these answers for those to its next requests.
-/

namespace WvStreams

open Lib UniClientConn UniClientGen UniConfDaemonConn CommandLine List Progress

/-- Both ends of the connection, and the bytes that have not arrived. `issued` are the requests
that were written, and `executed` the trees before and after each that the daemon has executed. -/
structure UniConfLink (σ : Type) where
  client : UniClientConn × Progress
  daemon : UniClientConn := {}
  tree : σ
  toDaemon : Str := []
  toClient : Str := []
  waiting : Option (Nat × UniClientGen.Call) := none
  issued : List UniClientGen.Request := []
  executed : List (σ × σ) := []

namespace UniConfLink

/-- What happens at either end, or between them. The polls of `flush_buffers` are callbacks. -/
inductive Input (σ : Type) where
  | call (c : UniClientGen.Call)
  | toDaemon (n : Nat)
  | execute
  | others (tree : σ) (notices : List (CString × Option CString))
  | toClient (n : Nat)
  | callback

/-- What `deltacallback` writes about a key, which may have no value. -/
def deltacallback (notice : CString × Option CString) : Str :=
  (UniClientConn.Message.mk .EVENT_NOTICE notice.1 notice.2).write

section Steps

variable {σ : Type} (gen : IUniConfGen σ) (depth : Nat)

/-- The client makes a call, unless it waits in another one. -/
def call (s : UniConfLink σ) (c : UniClientGen.Call) : UniConfLink σ :=
  if s.waiting.isSome then s
  else
    { s with
      client := (s.client.1, if c.waits then s.client.2.begin c else s.client.2)
      toDaemon := s.toDaemon ++ c.write s.client.2.version
      waiting := if c.waits then some (s.issued.length, c) else none
      issued := s.issued ++ c.requests s.client.2.version }

def execute (s : UniConfLink σ) : UniConfLink σ :=
  let (daemon, tree, toClient) :=
    UniConfDaemonConn.execute gen depth (s.daemon, s.tree, s.toClient)
  { s with
    daemon, tree, toClient
    executed :=
      if s.daemon.readcmd.1 = .NONE then s.executed else s.executed ++ [(s.tree, tree)] }

/-- The client looks for a message. A call that waits returns when no command is in progress any
more, or the connection is closed. -/
def callback (s : UniConfLink σ) :
    UniConfLink σ × Option (Nat × UniClientGen.Call × UniClientGen.Answer) :=
  let (c, p) := conncallback s.client
  match s.waiting with
  | none => ({ s with client := (c, p) }, none)
  | some (i, call) =>
    if c.isok && p.cmdinprogress then ({ s with client := (c, p) }, none)
    else
      ({ s with client := (c, p.finished call), waiting := none }, some (i, call, p.finish call))

/-- The output is the call that returns, with the number of its request. -/
def step (s : UniConfLink σ) :
    Input σ → UniConfLink σ × Option (Nat × UniClientGen.Call × UniClientGen.Answer)
  | .call c => (s.call c, none)
  | .toDaemon n =>
    ({ s with
        daemon := s.daemon.deliver (s.toDaemon.take n)
        toDaemon := s.toDaemon.drop n }, none)
  | .execute => (s.execute gen depth, none)
  | .others tree notices =>
    ({ s with tree, toClient := s.toClient ++ notices.flatMap deltacallback }, none)
  | .toClient n =>
    ({ s with
        client := (s.client.1.deliver (s.toClient.take n), s.client.2)
        toClient := s.toClient.drop n }, none)
  | .callback => s.callback

def machine : Machine (UniConfLink σ) (Input σ)
    (Option (Nat × UniClientGen.Call × UniClientGen.Answer)) where
  step s i := some (s.step gen depth i)

/-- The client has read the greeting. -/
def start (tree : σ) : UniConfLink σ where
  client := ({}, { version := 19 })
  tree := tree

/-! ## What is wanted of a step -/

/-- The daemon has done to its tree what the requests ask for, one after the other. -/
def Applied (s : UniConfLink σ) : Prop :=
  ∀ (i : Nat) (before after : σ), s.executed[i]? = some (before, after) →
    ∃ r : UniClientGen.Request, s.issued[i]? = some r ∧ after = r.effect gen depth before

/-- A call that returns has the answer to its own request. -/
def Answered (s : UniConfLink σ)
    (returned : Option (Nat × UniClientGen.Call × UniClientGen.Answer)) : Prop :=
  ∀ i c answer, returned = some (i, c, answer) →
    ∃ r before after, c.requests s.client.2.version = [r] ∧ s.issued[i]? = some r ∧
      s.executed[i]? = some (before, after) ∧ answer = c.answer gen depth before

/-- While the client waits, bytes are on their way or one end finds a message. -/
def Unstuck (s : UniConfLink σ) : Prop :=
  s.waiting ≠ none → s.toDaemon ≠ [] ∨ s.daemon.readmsg.1 ≠ none ∨ s.toClient ≠ [] ∨
    s.client.1.readmsg.1 ≠ none

/-- The client makes no bulk set, none of its arguments is left open at the end of a line, and what
the daemon lists can be read back. -/
def Clear (s : UniConfLink σ) : Input σ → Prop
  | .call c => ∀ r ∈ c.requests s.client.2.version, r.Whole
  | .execute => s.daemon.readmsg.1 ≠ none →
      ∀ r, s.issued[s.executed.length]? = some r → r.Legible gen depth s.tree
  | _ => True

end Steps

/-! ## Lines in flight -/

variable {σ : Type} {gen : IUniConfGen σ} {depth : Nat} {s : UniConfLink σ}

def todo (s : UniConfLink σ) : List UniClientGen.Request := s.issued.drop s.executed.length

/-- The bytes on their way are the requests that the daemon has not read, and these lines to the
client. -/
structure Tracked (s : UniConfLink σ) (replies : List CommandLine) : Prop where
  length : s.executed.length ≤ s.issued.length
  asked : Tracks UniClientGen.Request.text s.todo s.toDaemon s.daemon
  answered : Tracks CommandLine.text replies s.toClient s.client.1
  hello : ∀ l ∈ replies, l.command ≠ .EVENT_HELLO

theorem framed_requests (rs : List UniClientGen.Request) : ∀ r ∈ rs, Framed r.text :=
  fun r _ => r.line.framed

theorem handles_request (gen : IUniConfGen σ) (depth : Nat) (r : UniClientGen.Request) :
    Handles (UniConfDaemonConn.execute gen depth) UniClientGen.Request.text
      (fun t r => UniConfDaemonConn.served gen depth t r.line) r :=
  UniConfDaemonConn.execute_handles gen depth r.line_ne_quit

theorem execute_cases (gen : IUniConfGen σ) (depth : Nat)
    (h : Tracks UniClientGen.Request.text s.todo s.toDaemon s.daemon) :
    (∃ daemon, s.execute gen depth = { s with daemon } ∧
        Tracks UniClientGen.Request.text s.todo s.toDaemon daemon ∧
        (s.toDaemon = [] → s.todo = [])) ∨
      ∃ r rest daemon, s.todo = r :: rest ∧ s.daemon.readmsg.1 ≠ none ∧
        Tracks UniClientGen.Request.text rest s.toDaemon daemon ∧ s.execute gen depth =
          let served := UniConfDaemonConn.served gen depth (s.tree, s.toClient) r.line
          { s with
            daemon
            tree := served.1
            toClient := served.2
            executed := s.executed ++ [(s.tree, served.1)] } := by
  have hpoll := Tracks.poll (s := (s.daemon, s.tree, s.toClient)) (framed_requests s.todo)
    (UniConfDaemonConn.execute_waits gen depth) (fun r _ => handles_request gen depth r) h
  rcases hpoll with ⟨hnone, hall, htracks, hsame⟩ | ⟨r, rest, htodo, htext, htracks, hserved⟩
  · have hexecute : UniConfDaemonConn.execute gen depth (s.daemon, s.tree, s.toClient) =
        ((UniConfDaemonConn.execute gen depth (s.daemon, s.tree, s.toClient)).1, s.tree, s.toClient) :=
      Prod.ext rfl hsame
    refine .inl ⟨_, ?_, htracks, hall⟩
    rw [execute, hexecute, readcmd_of_none hnone]
    rfl
  · have hcommand : s.daemon.readcmd.1 = .command r.line.command :=
      congrArg Prod.fst (readcmd htext)
    have hexecute : UniConfDaemonConn.execute gen depth (s.daemon, s.tree, s.toClient) =
        ((UniConfDaemonConn.execute gen depth (s.daemon, s.tree, s.toClient)).1,
          UniConfDaemonConn.served gen depth (s.tree, s.toClient) r.line) := Prod.ext rfl hserved
    refine .inr ⟨r, rest, _, htodo, ?_, htracks, ?_⟩
    · rw [htext]
      exact Option.some_ne_none _
    · rw [execute, hexecute, hcommand]
      rfl

theorem conncallback_cases {replies : List CommandLine}
    (h : Tracks text replies s.toClient s.client.1)
    (hhello : ∀ l ∈ replies, l.command ≠ .EVENT_HELLO) :
    (∃ c, conncallback s.client = (c, s.client.2) ∧
        Tracks text replies s.toClient c ∧ (s.toClient = [] → replies = [])) ∨
      ∃ l rest c, replies = l :: rest ∧ conncallback s.client = (c, heard s.client.2 l) ∧
        Tracks text rest s.toClient c := by
  rcases h.poll (fun l _ => l.framed) Progress.conncallback_waits
    (fun l hl => Progress.conncallback_handles (hhello l hl)) with
    ⟨-, hall, htracks, hsame⟩ | ⟨l, rest, hreplies, -, htracks, hheard⟩
  · exact .inl ⟨_, Prod.ext rfl hsame, htracks, hall⟩
  · exact .inr ⟨l, rest, _, hreplies, Prod.ext rfl hheard, htracks⟩

/-! ## The call in progress -/

/-- A request that is not answered. -/
def Silent : UniClientGen.Request → Prop
  | .set _ _ | .remove _ => True
  | _ => False

/-- How far the call in progress has come. -/
inductive Phase (gen : IUniConfGen σ) (depth : Nat) (s : UniConfLink σ)
    (replies : List CommandLine) : Prop
  | idle (hwaiting : s.waiting = none) (htodo : ∀ r ∈ s.todo, Silent r)
      (hreplies : ∀ l ∈ replies, Quiet l) : Phase gen depth s replies
  | asked {c : UniClientGen.Call} {r : UniClientGen.Request} {before : List UniClientGen.Request}
      (hwaiting : s.waiting = some (s.executed.length + before.length, c))
      (hwaits : c.waits = true) (hrequests : ∀ version, c.requests version = [r])
      (htodo : s.todo = before ++ [r]) (hbefore : ∀ r ∈ before, Silent r)
      (hreplies : ∀ l ∈ replies, Quiet l) (hbegun : Begun c s.client.2) : Phase gen depth s replies
  | answered {i : Nat} {c : UniClientGen.Call} {r : UniClientGen.Request} {before after : σ}
      (hwaiting : s.waiting = some (i, c)) (hrequests : ∀ version, c.requests version = [r])
      (htodo : s.todo = []) (hissued : s.issued[i]? = some r)
      (hexecuted : s.executed[i]? = some (before, after)) (hprogress : s.client.2.cmdinprogress = true)
      (hcoming : Coming c (c.answer gen depth before) s.client.2 replies) : Phase gen depth s replies

structure Inv (gen : IUniConfGen σ) (depth : Nat) (s : UniConfLink σ)
    (replies : List CommandLine) : Prop where
  tracked : s.Tracked replies
  whole : ∀ r ∈ s.todo, r.Whole
  applied : s.Applied gen depth
  phase : Phase gen depth s replies

variable {r : UniClientGen.Request} {c : UniClientGen.Call}

theorem requests_of_waits (h : c.waits = true) : ∃ r, ∀ version, c.requests version = [r] := by
  cases c with
  | set k newvalue | setv pairs => cases h
  | _ => exact ⟨_, fun _ => rfl⟩

theorem silent_setRequest (k : CString) (newvalue : Option CString) :
    Silent (setRequest k newvalue) := by
  cases newvalue with
  | none | some value => trivial

theorem silent_of_not_waits {version : Int} (h : c.waits = false)
    (hwhole : ∀ r ∈ c.requests version, r.Whole) : ∀ r ∈ c.requests version, Silent r := by
  cases c with
  | set k newvalue => exact forall_mem_singleton.mpr (silent_setRequest k newvalue)
  | setv pairs =>
    rw [UniClientGen.Call.requests] at hwhole ⊢
    split at hwhole
    · exact (hwhole .setvEnd (mem_append_right _ (mem_singleton_self _))).elim
    · rename_i hversion
      rw [if_neg hversion]
      intro r hr
      obtain ⟨pair, -, rfl⟩ := mem_map.mp hr
      exact silent_setRequest pair.1 pair.2
  | _ => cases h

theorem reply_of_silent (h : Silent r) (tree : σ) : r.reply gen depth tree = [] := by
  cases r with
  | set k value => rfl
  | remove k => rfl
  | _ => exact h.elim

/-! ## Steps -/

variable {replies : List CommandLine}

theorem Applied.append (h : s.Applied gen depth) (rs : List UniClientGen.Request) :
    Applied gen depth { s with issued := s.issued ++ rs } := by
  intro i before after hi
  obtain ⟨r, hr, hafter⟩ := h i before after hi
  exact ⟨r, (List.getElem?_append_left (List.getElem?_eq_some_iff.mp hr).1).trans hr, hafter⟩

theorem todo_call (hlen : s.executed.length ≤ s.issued.length) (rs : List UniClientGen.Request) :
    drop s.executed.length (s.issued ++ rs) = s.todo ++ rs :=
  drop_append_of_le_length hlen

theorem Tracked.call (h : s.Tracked replies) (c : UniClientGen.Call) :
    (s.call c).Tracked replies := by
  rw [UniConfLink.call]
  split
  · exact h
  · refine ⟨?_, ?_, h.answered, h.hello⟩
    · rw [length_append]
      exact Nat.le_add_right_of_le h.length
    · have hasked := h.asked.append (framed_requests (c.requests s.client.2.version))
      rwa [← todo_call h.length, ← c.write_eq] at hasked

theorem Tracked.toDaemon (h : s.Tracked replies) (n : Nat) :
    Tracked { s with
        daemon := s.daemon.deliver (s.toDaemon.take n)
        toDaemon := s.toDaemon.drop n } replies := by
  have hasked := h.asked
  rw [← take_append_drop n s.toDaemon] at hasked
  exact ⟨h.length, hasked.deliver, h.answered, h.hello⟩

theorem Tracked.toClient (h : s.Tracked replies) (n : Nat) :
    Tracked { s with
        client := (s.client.1.deliver (s.toClient.take n), s.client.2)
        toClient := s.toClient.drop n } replies := by
  have hanswered := h.answered
  rw [← take_append_drop n s.toClient] at hanswered
  exact ⟨h.length, h.asked, hanswered.deliver, h.hello⟩

theorem Inv.call (h : Inv gen depth s replies)
    (hwhole : ∀ r ∈ c.requests s.client.2.version, r.Whole) : Inv gen depth (s.call c) replies := by
  have htracked := h.tracked.call c
  rw [UniConfLink.call] at htracked ⊢
  split
  · exact h
  · rename_i hidle
    rw [if_neg hidle] at htracked
    have hnone : s.waiting = none := by simpa using hidle
    have hlen := h.tracked.length
    have hsilent : (∀ r ∈ s.todo, Silent r) ∧ ∀ l ∈ replies, Quiet l := by
      cases h.phase with
      | idle _ htodo hreplies => exact ⟨htodo, hreplies⟩
      | asked hwaiting | answered hwaiting =>
        rw [hnone] at hwaiting
        cases hwaiting
    have htodo := todo_call hlen (c.requests s.client.2.version)
    refine ⟨htracked, ?_, h.applied.append _, ?_⟩
    · intro r hr
      have hr : r ∈ drop s.executed.length (s.issued ++ c.requests s.client.2.version) := hr
      rw [htodo] at hr
      exact (mem_append.mp hr).elim (h.whole r) (hwhole r)
    · cases hwaits : c.waits with
      | true =>
        obtain ⟨r, hrequests⟩ := requests_of_waits hwaits
        rw [hrequests] at htodo
        refine .asked ?_ hwaits hrequests ?_ hsilent.1 hsilent.2 (begun_begin _ c)
        · rw [if_pos rfl, todo, length_drop]
          exact congrArg (fun n => some (n, c)) (Nat.add_sub_cancel' hlen).symm
        · rw [todo, hrequests]
          exact htodo
      | false =>
        refine .idle rfl ?_ hsilent.2
        rw [todo, htodo]
        exact forall_mem_append.mpr ⟨hsilent.1, silent_of_not_waits hwaits hwhole⟩

theorem Phase.congr {s' : UniConfLink σ} (h : Phase gen depth s replies)
    (hwaiting : s'.waiting = s.waiting) (hissued : s'.issued = s.issued)
    (hexecuted : s'.executed = s.executed) (hclient : s'.client.2 = s.client.2) :
    Phase gen depth s' replies := by
  have htodo : s'.todo = s.todo := by rw [todo, todo, hissued, hexecuted]
  cases h with
  | idle hidle hsilent hreplies =>
    exact .idle (hwaiting.trans hidle) (htodo ▸ hsilent) hreplies
  | asked hasked hwaits hrequests hlast hbefore hreplies hbegun =>
    exact .asked (hwaiting.trans (hexecuted ▸ hasked)) hwaits hrequests (htodo.trans hlast) hbefore
      hreplies (hclient ▸ hbegun)
  | answered hanswered hrequests hnil hr hi hprogress hcoming =>
    exact .answered (hwaiting.trans hanswered) hrequests (htodo.trans hnil) (hissued ▸ hr)
      (hexecuted ▸ hi) (hclient ▸ hprogress) (hclient ▸ hcoming)

theorem Phase.append_quiet (h : Phase gen depth s replies) {quiet : List CommandLine}
    (hquiet : ∀ l ∈ quiet, Quiet l) : Phase gen depth s (replies ++ quiet) := by
  cases h with
  | idle hidle hsilent hreplies =>
    exact .idle hidle hsilent (forall_mem_append.mpr ⟨hreplies, hquiet⟩)
  | asked hasked hwaits hrequests hlast hbefore hreplies hbegun =>
    exact .asked hasked hwaits hrequests hlast hbefore
      (forall_mem_append.mpr ⟨hreplies, hquiet⟩) hbegun
  | answered hanswered hrequests hnil hr hi hprogress hcoming =>
    exact .answered hanswered hrequests hnil hr hi hprogress (hcoming.append_quiet hquiet)

def noticeLine (notice : CString × Option CString) : CommandLine :=
  (UniClientConn.Message.mk .EVENT_NOTICE notice.1 notice.2).line

theorem lines_notices (notices : List (CString × Option CString)) :
    lines text (notices.map noticeLine) = notices.flatMap deltacallback := by
  have hnotice : ∀ notice, deltacallback notice = (noticeLine notice).text ++ [newline] := by
    intro notice
    rw [deltacallback, Message.write_eq]
    exact (noticeLine notice).writecmd_eq
  rw [lines, flatMap_map]
  exact congrArg (fun f => notices.flatMap f) (funext fun notice => (hnotice notice).symm)

theorem Inv.others (h : Inv gen depth s replies) (tree : σ)
    (notices : List (CString × Option CString)) :
    Inv gen depth { s with tree, toClient := s.toClient ++ notices.flatMap deltacallback }
      (replies ++ notices.map noticeLine) := by
  have hquiet : ∀ l ∈ notices.map noticeLine, Quiet l := by
    intro l hl
    obtain ⟨notice, -, rfl⟩ := mem_map.mp hl
    rfl
  have hhello : ∀ l ∈ notices.map noticeLine, l.command ≠ .EVENT_HELLO := by
    intro l hl
    rw [hquiet l hl]
    decide
  have hframed : ∀ l ∈ notices.map noticeLine, Framed l.text := fun l _ => l.framed
  have hanswered := h.tracked.answered.append hframed
  rw [lines_notices] at hanswered
  exact ⟨⟨h.tracked.length, h.tracked.asked, hanswered,
    forall_mem_append.mpr ⟨h.tracked.hello, hhello⟩⟩, h.whole, h.applied,
    (h.phase.append_quiet hquiet).congr rfl rfl rfl rfl⟩

theorem getElem?_of_todo {rest : List UniClientGen.Request} (h : s.todo = r :: rest) :
    s.issued[s.executed.length]? = some r := by
  have hhead := congrArg (fun rs : List UniClientGen.Request => rs[0]?) h
  rwa [todo, getElem?_drop, Nat.add_zero] at hhead

theorem Applied.execute (h : s.Applied gen depth) (hr : s.issued[s.executed.length]? = some r)
    (daemon : UniClientConn) (toClient : Str) :
    Applied gen depth { s with
        daemon, toClient
        tree := r.effect gen depth s.tree
        executed := s.executed ++ [(s.tree, r.effect gen depth s.tree)] } := by
  intro i before after hi
  have hi : (s.executed ++ [(s.tree, r.effect gen depth s.tree)])[i]? = some (before, after) := hi
  rcases Nat.lt_or_ge i s.executed.length with hlt | hge
  · rw [getElem?_append_left hlt] at hi
    exact h i before after hi
  · rw [getElem?_append_right hge, getElem?_singleton] at hi
    split at hi
    · rename_i hzero
      obtain ⟨rfl, rfl⟩ := Prod.mk.inj (Option.some.inj hi)
      have hlast : i = s.executed.length := Nat.le_antisymm (Nat.sub_eq_zero_iff_le.mp hzero) hge
      exact ⟨r, by rw [hlast]; exact hr, rfl⟩
    · cases hi

theorem Phase.execute (h : Phase gen depth s replies) {rest : List UniClientGen.Request}
    (htodo : s.todo = r :: rest) (hlegible : r.Legible gen depth s.tree) :
    ∃ ls : List CommandLine, r.reply gen depth s.tree = lines text ls ∧
      (∀ l ∈ ls, l.command ≠ .EVENT_HELLO) ∧
      ∀ s' : UniConfLink σ, s'.waiting = s.waiting → s'.issued = s.issued →
        s'.client.2 = s.client.2 → s'.todo = rest →
        s'.executed = s.executed ++ [(s.tree, r.effect gen depth s.tree)] →
        Phase gen depth s' (replies ++ ls) := by
  cases h with
  | idle hidle hsilent hreplies =>
    rw [htodo] at hsilent
    obtain ⟨hr, hrest⟩ := forall_mem_cons.mp hsilent
    refine ⟨[], reply_of_silent hr s.tree, by simp, ?_⟩
    intro s' hwaiting _ _ hnext _
    rw [append_nil]
    exact .idle (hwaiting.trans hidle) (hnext ▸ hrest) hreplies
  | @asked c q before hasked hwaits hrequests hlast hbefore hreplies hbegun =>
    rw [htodo] at hlast
    cases before with
    | nil =>
      obtain ⟨rfl, rfl⟩ := cons.inj hlast
      obtain ⟨ls, hlines, hhello, hcoming⟩ := (reply_completes hwaits (hrequests 19) hlegible).lines
      refine ⟨ls, hlines, hhello, ?_⟩
      intro s' hwaiting hissued hclient hnext hexecuted
      have hcoming' := coming_quiet_append hreplies hcoming hbegun
      have hi : s'.executed[s.executed.length]? = some (s.tree, r.effect gen depth s.tree) := by
        rw [hexecuted]
        exact getElem?_concat_length
      refine .answered (hwaiting.trans hasked) hrequests hnext ?_ hi ?_ (hclient ▸ hcoming')
      · rw [hissued]
        exact getElem?_of_todo htodo
      · rw [hclient]
        exact hbegun.inprogress
    | cons b before =>
      obtain ⟨rfl, rfl⟩ := cons.inj hlast
      obtain ⟨hr, hbefore⟩ := forall_mem_cons.mp hbefore
      refine ⟨[], reply_of_silent hr s.tree, by simp, ?_⟩
      intro s' hwaiting _ hclient hnext hexecuted
      rw [append_nil]
      refine .asked (hwaiting.trans (hasked.trans ?_)) hwaits hrequests hnext hbefore hreplies
        (hclient ▸ hbegun)
      rw [hexecuted, length_append, length_singleton, length_cons]
      exact congrArg (fun n => some (n, c)) (by omega)
  | answered _ _ hnil =>
    rw [htodo] at hnil
    cases hnil

theorem Inv.execute (h : Inv gen depth s replies) (hclear : s.daemon.readmsg.1 ≠ none →
      ∀ r, s.issued[s.executed.length]? = some r → r.Legible gen depth s.tree) :
    ∃ replies', Inv gen depth (s.execute gen depth) replies' := by
  rcases execute_cases gen depth h.tracked.asked with
    ⟨daemon, heq, htracks, -⟩ | ⟨r, rest, daemon, htodo, hsome, htracks, heq⟩
  · refine ⟨replies, ?_⟩
    rw [heq]
    exact ⟨⟨h.tracked.length, htracks, h.tracked.answered, h.tracked.hello⟩, h.whole, h.applied,
      h.phase.congr rfl rfl rfl rfl⟩
  · have hr := getElem?_of_todo htodo
    have hwhole := h.whole
    rw [htodo] at hwhole
    obtain ⟨hwhole, hwholes⟩ := List.forall_mem_cons.mp hwhole
    obtain ⟨ls, hlines, hhello, hphase⟩ := h.phase.execute htodo (hclear hsome r hr)
    have hnext : List.drop (s.executed ++ [(s.tree, r.effect gen depth s.tree)]).length s.issued =
        rest := by
      rw [List.length_append, List.length_singleton, ← List.tail_drop]
      exact congrArg List.tail htodo
    rw [served_line gen depth hwhole] at heq
    have hframed : ∀ l ∈ ls, Framed l.text := fun l _ => l.framed
    have hanswered := h.tracked.answered.append hframed
    rw [← hlines] at hanswered
    refine ⟨replies ++ ls, ?_⟩
    rw [heq]
    refine ⟨⟨?_, ?_, hanswered, List.forall_mem_append.mpr ⟨h.tracked.hello, hhello⟩⟩, ?_,
      h.applied.execute hr daemon _, hphase _ rfl rfl rfl hnext rfl⟩
    · rw [List.length_append, List.length_singleton]
      exact (List.getElem?_eq_some_iff.mp hr).1
    · rw [todo, hnext]
      exact htracks
    · rw [todo, hnext]
      exact hwholes

theorem callback_idle {c : UniClientConn} {p : Progress}
    (h : conncallback s.client = (c, p)) (hwaiting : s.waiting = none) :
    s.callback = ({ s with client := (c, p) }, none) := by
  rw [UniConfLink.callback, h]
  rw [hwaiting]

theorem callback_waits {c : UniClientConn} {p : Progress} {i : Nat} {call : UniClientGen.Call}
    (h : conncallback s.client = (c, p)) (hwaiting : s.waiting = some (i, call))
    (hok : c.isok = true) (hprogress : p.cmdinprogress = true) :
    s.callback = ({ s with client := (c, p) }, none) := by
  rw [UniConfLink.callback, h]
  rw [hwaiting]
  dsimp only
  rw [hok, hprogress]
  rfl

theorem callback_returns {c : UniClientConn} {p : Progress} {i : Nat} {call : UniClientGen.Call}
    (h : conncallback s.client = (c, p)) (hwaiting : s.waiting = some (i, call))
    (hprogress : p.cmdinprogress = false) :
    s.callback = ({ s with client := (c, p.finished call), waiting := none },
      some (i, call, p.finish call)) := by
  rw [UniConfLink.callback, h]
  rw [hwaiting]
  dsimp only
  rw [hprogress, Bool.and_false]
  rfl

theorem answered_none (s : UniConfLink σ) : s.Answered gen depth none := by
  nofun

theorem Inv.callback (h : Inv gen depth s replies) :
    ∃ replies', Inv gen depth s.callback.1 replies' ∧
      s.callback.1.Answered gen depth s.callback.2 := by
  rcases conncallback_cases h.tracked.answered h.tracked.hello with
    ⟨c, hconn, htracks, -⟩ | ⟨l, rest, c, rfl, hconn, htracks⟩
  · -- there is no message
    have hsame : s.callback = ({ s with client := (c, s.client.2) }, none) := by
      cases h.phase with
      | idle hidle => exact callback_idle hconn hidle
      | asked hasked _ _ _ _ _ hbegun =>
        exact callback_waits hconn hasked htracks.reading.isok hbegun.inprogress
      | answered hanswered _ _ _ _ hprogress =>
        exact callback_waits hconn hanswered htracks.reading.isok hprogress
    rw [hsame]
    exact ⟨replies, ⟨⟨h.tracked.length, h.tracked.asked, htracks, h.tracked.hello⟩, h.whole,
      h.applied, h.phase.congr rfl rfl rfl rfl⟩, answered_none _⟩
  · have hhello := (forall_mem_cons.mp h.tracked.hello).2
    have htracked : ∀ p, Tracked { s with client := (c, p) } rest := fun _ =>
      ⟨h.tracked.length, h.tracked.asked, htracks, hhello⟩
    cases h.phase with
    | idle hidle hsilent hreplies =>
      rw [callback_idle hconn hidle]
      exact ⟨rest, ⟨htracked _, h.whole, h.applied,
        .idle hidle hsilent (forall_mem_cons.mp hreplies).2⟩, answered_none _⟩
    | asked hasked hwaits hrequests hlast hbefore hreplies hbegun =>
      obtain ⟨hl, hreplies⟩ := forall_mem_cons.mp hreplies
      have hnext := hbegun.quiet hl
      rw [callback_waits hconn hasked htracks.reading.isok hnext.inprogress]
      exact ⟨rest, ⟨htracked _, h.whole, h.applied,
        .asked hasked hwaits hrequests hlast hbefore hreplies hnext⟩, answered_none _⟩
    | @answered i call r before after hanswered hrequests hnil hr hi hprogress hcoming =>
      rw [Coming] at hcoming
      cases hdone : (heard s.client.2 l).cmdinprogress with
      | true =>
        rw [hdone, if_pos rfl] at hcoming
        rw [callback_waits hconn hanswered htracks.reading.isok hdone]
        exact ⟨rest, ⟨htracked _, h.whole, h.applied,
          .answered hanswered hrequests hnil hr hi hdone hcoming⟩, answered_none _⟩
      | false =>
        rw [hdone, if_neg Bool.false_ne_true] at hcoming
        obtain ⟨hanswer, hquiet⟩ := hcoming
        rw [callback_returns hconn hanswered hdone]
        have hsilent : ∀ r ∈ s.todo, Silent r := by
          rw [hnil]
          exact forall_mem_nil _
        refine ⟨rest, ⟨⟨h.tracked.length, h.tracked.asked, htracks, hhello⟩, h.whole, h.applied,
          .idle rfl hsilent hquiet⟩, ?_⟩
        intro j c' answer heq
        obtain ⟨rfl, rfl, rfl⟩ : i = j ∧ call = c' ∧ (heard s.client.2 l).finish call = answer := by
          simpa using heq
        exact ⟨r, before, after, hrequests _, hr, hi, hanswer⟩

/-- Every step that meets the condition keeps the invariant, and what returns is right. -/
theorem Inv.step (h : Inv gen depth s replies) {i : Input σ} (hclear : s.Clear gen depth i) :
    ∃ replies', Inv gen depth (s.step gen depth i).1 replies' ∧
      (s.step gen depth i).1.Answered gen depth (s.step gen depth i).2 := by
  cases i with
  | call c => exact ⟨replies, h.call hclear, answered_none _⟩
  | toDaemon n =>
    exact ⟨replies, ⟨h.tracked.toDaemon n, h.whole, h.applied, h.phase.congr rfl rfl rfl rfl⟩,
      answered_none _⟩
  | execute =>
    obtain ⟨replies', hnext⟩ := h.execute hclear
    exact ⟨replies', hnext, answered_none _⟩
  | others tree notices => exact ⟨_, h.others tree notices, answered_none _⟩
  | toClient n =>
    exact ⟨replies, ⟨h.tracked.toClient n, h.whole, h.applied, h.phase.congr rfl rfl rfl rfl⟩,
      answered_none _⟩
  | callback => exact h.callback

theorem tracked_start (tree : σ) : (start tree).Tracked [] :=
  ⟨le_refl 0, ⟨⟨rfl, .inl rfl, not_mem_nil⟩, not_mem_nil, [], .inl rfl, rfl⟩,
    ⟨⟨rfl, .inl rfl, not_mem_nil⟩, not_mem_nil, [], .inl rfl, rfl⟩, by simp⟩

theorem inv_start (gen : IUniConfGen σ) (depth : Nat) (tree : σ) :
    Inv gen depth (start tree) [] where
  tracked := tracked_start tree
  whole := by simp [start, todo]
  applied i before after hi := by cases hi
  phase := .idle rfl (by simp [start, todo]) (by simp)

theorem Inv.unstuck (h : Inv gen depth s replies) : s.Unstuck := by
  intro hwaiting
  by_contra hstuck
  simp only [not_or, not_not] at hstuck
  obtain ⟨hdaemon, hrequest, hclient, hreply⟩ := hstuck
  have htodo : s.todo = [] := by
    rcases h.tracked.asked.readmsg (framed_requests s.todo) with ⟨-, -, hall⟩ | ⟨r, _, -, hr, -⟩
    · exact hall hdaemon
    · rw [hrequest] at hr
      cases hr
  have hreplies : replies = [] := by
    rcases h.tracked.answered.readmsg (fun l _ => l.framed) with ⟨-, -, hall⟩ | ⟨l, _, -, hl, -⟩
    · exact hall hclient
    · rw [hreply] at hl
      cases hl
  cases h.phase with
  | idle hidle => exact hwaiting hidle
  | asked _ _ _ hlast =>
    rw [htodo] at hlast
    exact append_ne_nil_of_right_ne_nil _ (cons_ne_nil _ _) hlast.symm
  | answered _ _ _ _ _ _ hcoming =>
    rw [hreplies] at hcoming
    exact hcoming

/-- In whatever order the two ends take their steps and in whatever parts the bytes arrive: as long
as the client makes no bulk set, and nothing is left open at the end of a line, the daemon does what
the requests ask for, one after the other, and a call that waits returns what its own request came
to, without being stuck before. -/
theorem answers_own (gen : IUniConfGen σ) (depth : Nat) (tree : σ) (inputs : List (Input σ))
    (h : (machine gen depth).Along (Clear gen depth) (start tree) inputs) :
    (machine gen depth).Runs (fun _ _ s' returned =>
        s'.Applied gen depth ∧ s'.Answered gen depth returned ∧ s'.Unstuck)
      (start tree) inputs := by
  refine @Machine.runs_of_along _ _ _ _ _ _ (fun s => ∃ replies, Inv gen depth s replies) ?_ _
    ⟨[], inv_start gen depth tree⟩ _ h
  rintro s i ⟨replies, hs⟩ hclear
  obtain ⟨replies', hnext, hanswered⟩ := hs.step hclear
  exact ⟨_, _, rfl, ⟨hnext.applied, hanswered, hnext.unstuck⟩, replies', hnext⟩

theorem along_cons {Cond : UniConfLink σ → Input σ → Prop} (i : Input σ) (inputs : List (Input σ)) :
    (machine gen depth).Along Cond s (i :: inputs) ↔
      Cond s i ∧ (machine gen depth).Along Cond (s.step gen depth i).1 inputs := by
  constructor
  · exact fun h => ⟨h.1, h.2 _ _ rfl⟩
  · rintro ⟨hi, h⟩
    refine ⟨hi, fun s' o hnext => ?_⟩
    obtain rfl := congrArg Prod.fst (Option.some.inj hnext)
    exact h

theorem runs_cons {P : UniConfLink σ → Input σ → UniConfLink σ →
    Option (Nat × UniClientGen.Call × UniClientGen.Answer) → Prop} (i : Input σ)
    (inputs : List (Input σ)) :
    (machine gen depth).Runs P s (i :: inputs) ↔
      P s i (s.step gen depth i).1 (s.step gen depth i).2 ∧
        (machine gen depth).Runs P (s.step gen depth i).1 inputs := by
  constructor
  · rintro ⟨s', o, hnext, hP, h⟩
    obtain ⟨rfl, rfl⟩ := Prod.mk.inj (Option.some.inj hnext)
    exact ⟨hP, h⟩
  · exact fun ⟨hP, h⟩ => ⟨_, _, rfl, hP, h⟩

/-- The value of `a` is asked for, and its request and the reply arrive in parts. -/
theorem answers_own_value :
    let tree := (UniTempGen.empty.set [bytes "a"] (some (bytes "1"))).1
    let a : CString := ⟨bytes "a", by decide⟩
    (machine UniTempGen.gen 1).Runs
      (fun _ _ s' returned => s'.Applied UniTempGen.gen 1 ∧ s'.Answered UniTempGen.gen 1 returned ∧
        s'.Unstuck) (start tree)
      [.call (.get a), .toDaemon 3, .toDaemon 5, .execute, .toClient 4, .callback, .toClient 20,
        .callback] := by
  intro tree a
  apply answers_own
  have hlegible : (UniClientGen.Request.get a).Legible UniTempGen.gen 1 tree := by
    have hget : UniTempGen.gen.get (key a) tree = some (bytes "1") := by decide +kernel
    intro value hvalue
    rw [hget] at hvalue
    obtain rfl := Option.some.inj hvalue
    exact ⟨by decide, by decide⟩
  simp only [along_cons]
  refine ⟨forall_mem_singleton.mpr ?_, trivial, trivial, ?_, trivial, trivial, trivial,
    trivial, trivial⟩
  · show leftOpen (key a).printable = false
    decide +kernel
  · intro _ r hr
    obtain rfl : UniClientGen.Request.get a = r := Option.some.inj hr
    exact hlegible

def unknownLine : CommandLine :=
  UniConfDaemonConn.line .REPLY_FAIL (bytes "unknown command: setv")
    ⟨passes_plain (by decide), by decide⟩

theorem served_setvEnd (gen : IUniConfGen σ) (depth : Nat) (t : σ × Str) :
    served gen depth t (UniClientGen.Request.line .setvEnd) =
      (t.1, t.2 ++ lines text [unknownLine]) := by
  have hreply : do_invalid (Command.name .REQ_SETV) =
      lines text [unknownLine] := by decide +kernel
  rw [← hreply]
  rfl

/-- After an empty bulk set the client asks for the value of `a`, which the tree has, and returns
none before the daemon has executed the request. -/
theorem answers_own_fails :
    let tree := (UniTempGen.empty.set [bytes "a"] (some (bytes "1"))).1
    let a : CString := ⟨bytes "a", by decide⟩
    UniTempGen.gen.get (key a) tree = some (bytes "1") ∧ ¬ (machine UniTempGen.gen 1).Runs
        (fun _ _ s' returned => s'.Applied UniTempGen.gen 1 ∧
          s'.Answered UniTempGen.gen 1 returned ∧ s'.Unstuck) (start tree)
        [.call (.setv []), .call (.get a), .toDaemon 11, .execute, .toClient 27, .callback] := by
  intro tree a
  refine ⟨by decide +kernel, fun h => ?_⟩
  simp only [runs_cons] at h
  obtain ⟨-, -, -, -, -, ⟨-, hanswered, -⟩, -⟩ := h
  -- both lines have arrived
  let s₁ : UniConfLink UniTempGen :=
    ((((start tree).call (.setv [])).call (.get a)).step UniTempGen.gen 1 (.toDaemon 11)).1
  have htracked : s₁.Tracked [] := (((tracked_start tree).call _).call _).toDaemon 11
  have hgone : s₁.toDaemon = [] := by decide +kernel
  have htodo : s₁.todo = [.setvEnd, .get a] := rfl
  rcases execute_cases UniTempGen.gen 1 htracked.asked with
    ⟨-, -, -, hnone⟩ | ⟨r, rest, daemon, hnext, -, htracks, hexecute⟩
  · exact absurd (hnone hgone) (by rw [htodo]; exact cons_ne_nil _ _)
  · obtain ⟨rfl, rfl⟩ := cons.inj (htodo.symm.trans hnext)
    rw [served_setvEnd] at hexecute
    let s₂ : UniConfLink UniTempGen :=
      { s₁ with
        daemon
        toClient := lines text [unknownLine]
        executed := [(tree, tree)] }
    have hframed : ∀ l ∈ [unknownLine], Framed l.text := fun l _ => l.framed
    have hunknown : ∀ l ∈ [unknownLine], l.command ≠ .EVENT_HELLO :=
      forall_mem_singleton.mpr nofun
    have htracked₂ : s₂.Tracked [unknownLine] :=
      ⟨Nat.le_add_left 1 1, htracks, htracked.answered.append hframed, hunknown⟩
    let s₃ : UniConfLink UniTempGen := (s₂.step UniTempGen.gen 1 (.toClient 27)).1
    have htracked₃ : s₃.Tracked [unknownLine] := htracked₂.toClient 27
    have hlast : s₃.callback.1.Answered UniTempGen.gen 1 s₃.callback.2 := by
      have hnext : s₃ = ((s₁.execute UniTempGen.gen 1).step UniTempGen.gen 1 (.toClient 27)).1 := by
        rw [hexecute]
        rfl
      rw [hnext]
      exact hanswered
    have hgone₃ : s₃.toClient = [] :=
      show (lines text [unknownLine]).drop 27 = [] by decide +kernel
    rcases conncallback_cases htracked₃.answered hunknown with
      ⟨-, -, -, hnone⟩ | ⟨l, rest, c, hreply, hconn, -⟩
    · exact absurd (hnone hgone₃) (cons_ne_nil _ _)
    · obtain ⟨rfl, rfl⟩ := cons.inj hreply
      have hwaiting : s₃.waiting = some (1, .get a) := rfl
      have hdone : (heard s₃.client.2 unknownLine).cmdinprogress = false := rfl
      have hreturns := callback_returns hconn hwaiting hdone
      rw [hreturns] at hlast
      obtain ⟨r, before, after, -, -, hexecuted, -⟩ := hlast 1 _ _ rfl
      cases hexecuted

end UniConfLink

end WvStreams
