import WvStreams.Lib.Machine
import WvStreams.Strings.WvString

/-!
# The names of a bus

`WvDBusServer` keeps a table of the names that its connections have asked for, and answers or
passes on their messages. A name always belongs to the connection that was the last to ask for it,
as long as that one neither releases it nor closes; but `unregister_name` asserts that the name is
its own, so the server goes on if and only if no connection releases a name that it does not own
(`table_sound_iff`).
-/

namespace WvStreams

open List Option

/-- What the server looks at in a message; `arg` is the first argument as a string. -/
structure DBusMsg where
  path : WvString
  dest : WvString
  member : WvString
  arg : WvString
  deriving DecidableEq

/-- An argument of a reply. -/
inductive ReplyArg
  | str (s : Str)
  | bool (b : Bool)
  | uint32 (n : Nat)
  deriving DecidableEq

inductive Outgoing
  | reply (args : List ReplyArg)
  | error (errname message : Str)
  | forward (msg : DBusMsg) (sender : Option Str)
  deriving DecidableEq

/-- What the server asks others about a connection or a user. -/
structure Outside where
  /-- None for `WVUID_INVALID`. -/
  get_uid : Nat → Option Nat
  wv_username_from_uid : Nat → WvString
  peercert : Nat → WvString
  /-- Of a certificate that the connection has been authenticated with. -/
  get_fingerprint : Str → Str

inductive Request
  | own (name : WvString) (conn : Nat)
  | release (name : WvString) (conn : Nat)
  | close (conn : Nat)
  deriving DecidableEq

/-- A connection is known by its `conncount`. -/
structure WvDBusServer where
  all_conns : List Nat := []
  /-- None where the map has no entry. -/
  name_to_conn : WvString → Option (Option Nat) := fun _ => none
  conncount : Nat := 0
  /-- What was asked for so far. -/
  history : List Request := []

namespace DBusMsg

def bus : WvString := some (bytes "org.freedesktop.DBus")

def method (msg : DBusMsg) (name : String) : Bool := msg.member = some (bytes name)

def requests (msg : DBusMsg) : Bool := msg.dest = bus && msg.method "RequestName"

def releases (msg : DBusMsg) : Bool := msg.dest = bus && msg.method "ReleaseName"

end DBusMsg

namespace WvDBusServer

def uniquename (conn : Nat) : Str := bytes (":" ++ toString conn ++ ".0")

def format (front : String) (s : WvString) (back : String) : Str :=
  bytes front ++ s.getD (bytes "(nil)") ++ bytes back

def failed : Str := bytes "org.freedesktop.DBus.Error.Failed"

def resolve (s : WvDBusServer) (name : WvString) : Option Nat := (s.name_to_conn name).join

def touch (s : WvDBusServer) (name : WvString) : WvDBusServer :=
  { s with
    name_to_conn := fun n => if n = name then some (s.resolve name) else s.name_to_conn n }

def register_name (s : WvDBusServer) (name : WvString) (conn : Nat) : WvDBusServer :=
  { s with name_to_conn := fun n => if n = name then some (some conn) else s.name_to_conn n }

/-- None if the assertion fails. -/
def unregister_name (s : WvDBusServer) (name : WvString) (conn : Nat) : Option WvDBusServer :=
  if s.resolve name = some conn then
    some { s with name_to_conn := fun n => if n = name then none else s.name_to_conn n }
  else none

def unregister_conn (s : WvDBusServer) (conn : Nat) : WvDBusServer :=
  { s with
    name_to_conn := fun n =>
      if s.name_to_conn n = some (some conn) then none else s.name_to_conn n
    all_conns := s.all_conns.filter (· ≠ conn) }

/-! ## Messages -/

/-- The answers to `GetConnectionUnixUser` and `GetConnectionUnixUserName`. -/
def unixUser (s : WvDBusServer) (outside : Outside) (msg : DBusMsg) : Outgoing :=
  match s.resolve msg.arg with
  | none => .error failed (format "No connection found for name '" msg.arg "'.")
  | some target =>
    match outside.get_uid target with
    | none =>
      .error failed (format "No user associated with connection '" (some (uniquename target)) "'.")
    | some uid =>
      if msg.method "GetConnectionUnixUser" then .reply [.uint32 uid]
      else
        match outside.wv_username_from_uid uid with
        | none | some [] =>
          .error failed (format "No username for uid='" (some (bytes (toString uid))) "'")
        | some username => .reply [.str username]

/-- The answers to `GetConnectionCert` and `GetConnectionCertFingerprint`. -/
def connectionCert (s : WvDBusServer) (outside : Outside) (msg : DBusMsg) : Outgoing :=
  match (s.resolve msg.arg).bind outside.peercert with
  | none => .error failed (format "Connection " msg.arg " did not present a certificate")
  | some cert =>
    if msg.method "GetConnectionCertFingerprint" then .reply [.str (outside.get_fingerprint cert)]
    else .reply [.str cert]

/-- Whether the message is handled, the server behind it and what is sent; none if an assertion
fails. -/
def do_server_msg (s : WvDBusServer) (outside : Outside) (conn : Nat) (msg : DBusMsg) :
    Option (Bool × WvDBusServer × List (Nat × Outgoing)) :=
  if msg.path = some (bytes "/org/freedesktop/DBus/Local") ∧ msg.method "Disconnected" then
    some (true, s, [])
  else if msg.dest ≠ DBusMsg.bus then some (false, s, [])
  else if msg.method "Hello" then some (true, s, [(conn, .reply [.str (uniquename conn)])])
  else if msg.method "RequestName" then
    -- DBUS_REQUEST_NAME_REPLY_PRIMARY_OWNER
    some (true, s.register_name msg.arg conn, [(conn, .reply [.uint32 1])])
  else if msg.method "ReleaseName" then
    -- DBUS_RELEASE_NAME_REPLY_RELEASED
    (s.unregister_name msg.arg conn).map fun s => (true, s, [(conn, .reply [.uint32 1])])
  else if msg.method "NameHasOwner" then
    some (true, s.touch msg.arg, [(conn, .reply [.bool (s.resolve msg.arg).isSome])])
  else if msg.method "GetNameOwner" then
    some (true, s.touch msg.arg, [(conn, match s.resolve msg.arg with
      | some serv => .reply [.str (uniquename serv)]
      | none =>
        .error (bytes "org.freedesktop.DBus.Error.NameHasNoOwner")
          (format "No match for name '" msg.arg "'"))])
  else if msg.method "AddMatch" ∨ msg.method "StartServiceByName" then
    some (true, s, [(conn, .reply [])])
  else if msg.method "GetConnectionUnixUser" ∨ msg.method "GetConnectionUnixUserName" then
    some (true, s.touch msg.arg, [(conn, s.unixUser outside msg)])
  else if msg.method "GetConnectionCert" ∨ msg.method "GetConnectionCertFingerprint" then
    some (true, s.touch msg.arg, [(conn, s.connectionCert outside msg)])
  else
    some (true, s, [(conn, .error (bytes "org.freedesktop.DBus.Error.UnknownMethod")
      (format "Unknown dbus method '" msg.member "'"))])

/-- None if it cannot be passed on. -/
def do_bridge_msg (s : WvDBusServer) (conn : Nat) (msg : DBusMsg) :
    Option (List (Nat × Outgoing)) :=
  if WvString.not msg.dest then none
  else (s.resolve msg.dest).map fun dconn => [(dconn, .forward msg (some (uniquename conn)))]

def do_broadcast_msg (s : WvDBusServer) (msg : DBusMsg) : Option (List (Nat × Outgoing)) :=
  if WvString.not msg.dest then some (s.all_conns.map (·, .forward msg none))
  else none

def do_gaveup_msg (conn : Nat) (msg : DBusMsg) : List (Nat × Outgoing) :=
  [(conn, .error (bytes "org.freedesktop.DBus.Error.NameHasNoOwner")
    (format "No running service named '" msg.dest "'"))]

/-- The callbacks of a connection, in the order of their priorities. -/
def filter_func (s : WvDBusServer) (outside : Outside) (conn : Nat) (msg : DBusMsg) :
    Option (WvDBusServer × List (Nat × Outgoing)) :=
  (s.do_server_msg outside conn msg).map fun r =>
    (r.2.1, if r.1 then r.2.2
      else
        ((r.2.1.do_bridge_msg conn msg).orElse fun _ => r.2.1.do_broadcast_msg msg).getD
          (do_gaveup_msg conn msg))

/-! ## Runs -/

inductive Input
  | new_connection
  | message (conn : Nat) (msg : DBusMsg) (outside : Outside)
  | conn_closed (conn : Nat)

def asked (conn : Nat) (msg : DBusMsg) : List Request :=
  if msg.requests then [.own msg.arg conn]
  else if msg.releases then [.release msg.arg conn]
  else []

def record (s : WvDBusServer) (requests : List Request) : WvDBusServer :=
  { s with history := s.history ++ requests }

def new_connection_cb (s : WvDBusServer) : WvDBusServer :=
  let conn := s.conncount + 1
  { s with all_conns := s.all_conns ++ [conn], conncount := conn }.register_name
    (some (uniquename conn)) conn

/-- Only connections of the server come with messages or close. -/
def step (s : WvDBusServer) : Input → Option (WvDBusServer × List (Nat × Outgoing))
  | .new_connection =>
    some (s.new_connection_cb.record
      [.own (some (uniquename (s.conncount + 1))) (s.conncount + 1)], [])
  | .message conn msg outside =>
    if conn ∈ s.all_conns then
      (s.filter_func outside conn msg).map fun r => (r.1.record (asked conn msg), r.2)
    else some (s, [])
  | .conn_closed conn =>
    if conn ∈ s.all_conns then some ((s.unregister_conn conn).record [.close conn], [])
    else some (s, [])

def machine : Lib.Machine WvDBusServer Input (List (Nat × Outgoing)) where
  step := step

/-- The last to ask for the name, who has not released it and is not closed. -/
def Latest (history : List Request) (name : WvString) (conn : Nat) : Prop :=
  ∃ before after, history = before ++ .own name conn :: after ∧
    ∀ r ∈ after, r ≠ .close conn ∧ r ≠ .release name conn ∧ ∀ other, r ≠ .own name other

/-- A name belongs to a connection of the server, the latest to ask for it, and to none that is
closed. -/
structure Sound (s : WvDBusServer) : Prop where
  registered : ∀ name conn, s.resolve name = some conn → conn ∈ s.all_conns
  latest : ∀ name conn, s.resolve name = some conn → Latest s.history name conn
  closed : ∀ conn, .close conn ∈ s.history → ∀ name, s.resolve name ≠ some conn

/-- What is wanted of a step: a sound table, which a release by someone else leaves as it is. -/
def Keeps (s : WvDBusServer) (i : Input) (s' : WvDBusServer) (_ : List (Nat × Outgoing)) : Prop :=
  s'.Sound ∧ ∀ conn msg outside, i = .message conn msg outside → msg.releases = true →
    s.resolve msg.arg ≠ some conn → s'.name_to_conn = s.name_to_conn

/-- A connection releases only what it owns. -/
def Proper (s : WvDBusServer) : Input → Prop
  | .message conn msg _ => conn ∈ s.all_conns → msg.releases = true → s.resolve msg.arg = some conn
  | _ => True

/-! ## The table -/

variable {s : WvDBusServer}

@[simp] theorem resolve_touch (name n : WvString) : (s.touch name).resolve n = s.resolve n := by
  unfold resolve touch
  dsimp only
  split
  · rename_i heq
    rw [heq, resolve]
    rfl
  · rfl

theorem resolve_register_name (name n : WvString) (conn : Nat) :
    (s.register_name name conn).resolve n = if n = name then some conn else s.resolve n := by
  unfold resolve register_name
  dsimp only
  split <;> rfl

theorem resolve_unregister_conn (n : WvString) (conn : Nat) :
    (s.unregister_conn conn).resolve n =
      if s.resolve n = some conn then none else s.resolve n := by
  unfold resolve unregister_conn
  dsimp only
  rcases s.name_to_conn n with _ | _ | c
  · rfl
  · rfl
  · by_cases heq : c = conn <;> simp [heq]

theorem unregister_name_eq_none (name : WvString) (conn : Nat) :
    s.unregister_name name conn = none ↔ s.resolve name ≠ some conn := by
  rw [unregister_name, ne_eq]
  split <;> simp [*]

/-- The names that belong to someone, the connections and the requests are as before. -/
structure Same (s s' : WvDBusServer) : Prop where
  resolve : ∀ name, s'.resolve name = s.resolve name
  all_conns : s'.all_conns = s.all_conns
  conncount : s'.conncount = s.conncount
  history : s'.history = s.history

theorem Same.refl (s : WvDBusServer) : Same s s := ⟨fun _ => rfl, rfl, rfl, rfl⟩

theorem same_touch (name : WvString) : Same s (s.touch name) :=
  ⟨resolve_touch name, rfl, rfl, rfl⟩

/-- What a message does to the table. -/
inductive Effect (s : WvDBusServer) (conn : Nat) (msg : DBusMsg) : Option WvDBusServer → Prop
  | own (h : msg.requests = true) : Effect s conn msg (some (s.register_name msg.arg conn))
  | release (hrequests : msg.requests = false) (h : msg.releases = true) :
      Effect s conn msg (s.unregister_name msg.arg conn)
  | other (hrequests : msg.requests = false) (hreleases : msg.releases = false)
      (s' : WvDBusServer) (h : Same s s') : Effect s conn msg (some s')

open DBusMsg

theorem method_ne {msg : DBusMsg} {name other : String} (h : msg.method name = true)
    (hne : bytes name ≠ bytes other) : msg.method other = false := by
  have hname : msg.member = some (bytes name) := of_decide_eq_true h
  rw [method, hname]
  exact decide_eq_false fun heq => hne (some.inj heq)

theorem effect_do_server_msg (outside : Outside) (conn : Nat) (msg : DBusMsg) :
    Effect s conn msg ((s.do_server_msg outside conn msg).map (·.2.1)) := by
  have hother : ∀ {s' : WvDBusServer}, Same s s' →
      (msg.dest ≠ bus ∨ msg.method "RequestName" = false ∧
        msg.method "ReleaseName" = false) → Effect s conn msg (some s') := by
    intro s' hsame hmsg
    refine .other ?_ ?_ s' hsame
    · rcases hmsg with hdest | hmsg
      · rw [requests, decide_eq_false hdest, Bool.false_and]
      · rw [requests, hmsg.1, Bool.and_false]
    · rcases hmsg with hdest | hmsg
      · rw [releases, decide_eq_false hdest, Bool.false_and]
      · rw [releases, hmsg.2, Bool.and_false]
  unfold do_server_msg
  by_cases hlocal : msg.path = some (bytes "/org/freedesktop/DBus/Local") ∧
      msg.method "Disconnected" = true
  · rw [if_pos hlocal]
    exact hother (.refl s) (Or.inr ⟨method_ne hlocal.2 (by decide), method_ne hlocal.2 (by decide)⟩)
  rw [if_neg hlocal]
  by_cases hdest : msg.dest = bus
  swap
  · rw [if_pos hdest]
    exact hother (.refl s) (Or.inl hdest)
  rw [if_neg (not_not_intro hdest)]
  by_cases hhello : msg.method "Hello" = true
  · rw [if_pos hhello]
    exact hother (.refl s) (Or.inr ⟨method_ne hhello (by decide), method_ne hhello (by decide)⟩)
  rw [if_neg hhello]
  by_cases hrequest : msg.method "RequestName" = true
  · rw [if_pos hrequest]
    refine .own ?_
    rw [requests, decide_eq_true hdest, hrequest]
    rfl
  rw [if_neg hrequest]
  have hrequest := Bool.eq_false_iff.mpr hrequest
  by_cases hrelease : msg.method "ReleaseName" = true
  · rw [if_pos hrelease, Option.map_map]
    have heffect : Effect s conn msg (s.unregister_name msg.arg conn) := by
      refine .release ?_ ?_
      · rw [requests, hrequest, Bool.and_false]
      · rw [releases, decide_eq_true hdest, hrelease]
        rfl
    convert heffect
    exact Option.map_id'
  rw [if_neg hrelease]
  have hnone := And.intro hrequest (Bool.eq_false_iff.mpr hrelease)
  -- what is left only reads the table
  split_ifs
  all_goals first
    | exact hother (same_touch _) (Or.inr hnone)
    | exact hother (.refl s) (Or.inr hnone)

theorem effect_filter_func (outside : Outside) (conn : Nat) (msg : DBusMsg) :
    Effect s conn msg ((s.filter_func outside conn msg).map (·.1)) := by
  have heffect := effect_do_server_msg (s := s) outside conn msg
  rw [filter_func, Option.map_map]
  exact heffect

/-! ## The invariant -/

structure Inv (s : WvDBusServer) : Prop where
  sound : s.Sound
  gone : ∀ conn, .close conn ∈ s.history → conn ∉ s.all_conns
  fresh : ∀ conn ∈ s.all_conns, conn ≤ s.conncount
  past : ∀ conn, .close conn ∈ s.history → conn ≤ s.conncount

variable {conn : Nat}

theorem Latest.append {history : List Request} {name : WvString} (h : Latest history name conn)
    {request : Request} (hclose : request ≠ .close conn) (hrelease : request ≠ .release name conn)
    (hown : ∀ other, request ≠ .own name other) : Latest (history ++ [request]) name conn := by
  obtain ⟨before, after, rfl, hafter⟩ := h
  refine ⟨before, after ++ [request], by rw [append_assoc]; rfl, fun r hr => ?_⟩
  rcases mem_append.mp hr with hr | hr
  · exact hafter r hr
  · rw [mem_singleton.mp hr]
    exact ⟨hclose, hrelease, hown⟩

theorem latest_own (history : List Request) (name : WvString) (conn : Nat) :
    Latest (history ++ [.own name conn]) name conn :=
  ⟨history, [], rfl, nofun⟩

theorem close_mem_append {history : List Request} {request : Request}
    (h : .close conn ∈ history ++ [request]) (hne : request ≠ .close conn) :
    .close conn ∈ history :=
  (mem_append.mp h).resolve_right fun hlast => hne (mem_singleton.mp hlast).symm

theorem Inv.register (h : s.Inv) (name : WvString) (hconn : conn ∈ s.all_conns) :
    ((s.register_name name conn).record [.own name conn]).Inv := by
  have hclosed : ∀ c, .close c ∈ s.history ++ [Request.own name conn] → .close c ∈ s.history :=
    fun c hc => close_mem_append hc nofun
  refine ⟨⟨?_, ?_, ?_⟩, fun c hc => h.gone c (hclosed c hc), h.fresh,
    fun c hc => h.past c (hclosed c hc)⟩
  · intro n c hn
    have hn := (resolve_register_name name n conn).symm.trans hn
    split at hn
    · exact some.inj hn ▸ hconn
    · exact h.sound.registered n c hn
  · intro n c hn
    have hn := (resolve_register_name name n conn).symm.trans hn
    split at hn
    · rename_i heq
      rw [heq, ← some.inj hn]
      exact latest_own _ _ _
    · rename_i hne
      refine (h.sound.latest n c hn).append nofun nofun ?_
      intro other heq
      cases heq
      exact hne rfl
  · intro c hc n hn
    have hn := (resolve_register_name name n conn).symm.trans hn
    split at hn
    · exact h.gone c (hclosed c hc) (some.inj hn ▸ hconn)
    · exact h.sound.closed c (hclosed c hc) n hn

theorem Inv.release (h : s.Inv) {name : WvString} (howner : s.resolve name = some conn) :
    ∃ s', s.unregister_name name conn = some s' ∧ (s'.record [.release name conn]).Inv := by
  have hclosed : ∀ c, .close c ∈ s.history ++ [Request.release name conn] →
      .close c ∈ s.history := fun c hc => close_mem_append hc nofun
  rw [unregister_name, if_pos howner]
  refine ⟨_, rfl, ⟨?_, ?_, ?_⟩, fun c hc => h.gone c (hclosed c hc), h.fresh,
    fun c hc => h.past c (hclosed c hc)⟩
  all_goals
    have hresolve : ∀ n c, join (if n = name then none else s.name_to_conn n) = some c →
        n ≠ name ∧ s.resolve n = some c := by
      intro n c hn
      split at hn
      · cases hn
      · exact ⟨‹_›, hn⟩
  · exact fun n c hn => h.sound.registered n c (hresolve n c hn).2
  · intro n c hn
    obtain ⟨hne, hn⟩ := hresolve n c hn
    refine (h.sound.latest n c hn).append nofun ?_ nofun
    intro heq
    cases heq
    exact hne rfl
  · exact fun c hc n hn => h.sound.closed c (hclosed c hc) n (hresolve n c hn).2

theorem Inv.same (h : s.Inv) {s' : WvDBusServer} (hsame : Same s s') : s'.Inv := by
  refine ⟨⟨?_, ?_, ?_⟩, ?_, ?_, ?_⟩
  · intro n c hn
    exact hsame.all_conns ▸ h.sound.registered n c ((hsame.resolve n).symm.trans hn)
  · intro n c hn
    exact hsame.history ▸ h.sound.latest n c ((hsame.resolve n).symm.trans hn)
  · intro c hc n hn
    exact h.sound.closed c (hsame.history ▸ hc) n ((hsame.resolve n).symm.trans hn)
  · intro c hc
    rw [hsame.all_conns]
    exact h.gone c (hsame.history ▸ hc)
  · intro c hc
    rw [hsame.conncount]
    exact h.fresh c (hsame.all_conns ▸ hc)
  · intro c hc
    rw [hsame.conncount]
    exact h.past c (hsame.history ▸ hc)

theorem Inv.close (h : s.Inv) (hconn : conn ∈ s.all_conns) :
    ((s.unregister_conn conn).record [.close conn]).Inv := by
  have hresolve : ∀ n c, (s.unregister_conn conn).resolve n = some c →
      c ≠ conn ∧ s.resolve n = some c := by
    intro n c hn
    rw [resolve_unregister_conn] at hn
    split at hn
    · cases hn
    · rename_i hne
      exact ⟨fun heq => hne (heq ▸ hn), hn⟩
  have hclosed : ∀ c, .close c ∈ s.history ++ [Request.close conn] → c ≠ conn →
      .close c ∈ s.history := by
    intro c hc hne
    exact close_mem_append hc fun heq => hne (Request.close.inj heq).symm
  refine ⟨⟨?_, ?_, ?_⟩, ?_, ?_, ?_⟩
  · intro n c hn
    obtain ⟨hne, hn⟩ := hresolve n c hn
    exact mem_filter.mpr ⟨h.sound.registered n c hn, decide_eq_true hne⟩
  · intro n c hn
    obtain ⟨hne, hn⟩ := hresolve n c hn
    exact (h.sound.latest n c hn).append (fun heq => hne (Request.close.inj heq).symm)
      nofun nofun
  · intro c hc n hn
    obtain ⟨hne, hn⟩ := hresolve n c hn
    exact h.sound.closed c (hclosed c hc hne) n hn
  · intro c hc hmem
    obtain ⟨hmem, hne⟩ := mem_filter.mp hmem
    exact h.gone c (hclosed c hc (of_decide_eq_true hne)) hmem
  · exact fun c hc => h.fresh c (mem_of_mem_filter hc)
  · intro c hc
    by_cases heq : c = conn
    · exact heq ▸ h.fresh conn hconn
    · exact h.past c (hclosed c hc heq)

theorem Inv.new_connection (h : s.Inv) : (s.new_connection_cb.record
    [.own (some (uniquename (s.conncount + 1))) (s.conncount + 1)]).Inv := by
  have hgrown : Inv { s with
      all_conns := s.all_conns ++ [s.conncount + 1], conncount := s.conncount + 1 } := by
    refine ⟨⟨?_, h.sound.latest, h.sound.closed⟩, ?_, ?_, ?_⟩
    · exact fun n c hn => mem_append_left _ (h.sound.registered n c hn)
    · intro c hc hmem
      rcases mem_append.mp hmem with hmem | hmem
      · exact h.gone c hc hmem
      · have hle := h.past c hc
        rw [mem_singleton.mp hmem] at hle
        exact Nat.not_succ_le_self _ hle
    · exact forall_mem_append.mpr ⟨fun c hc => Nat.le_succ_of_le (h.fresh c hc),
        forall_mem_singleton.mpr (Nat.le_refl _)⟩
    · exact fun c hc => Nat.le_succ_of_le (h.past c hc)
  exact hgrown.register _ (mem_append_right _ mem_cons_self)

theorem record_nil (s : WvDBusServer) : s.record [] = s := by
  rw [record, append_nil]

theorem Inv.message (h : s.Inv) (hconn : conn ∈ s.all_conns) {msg : DBusMsg}
    (hproper : msg.releases = true → s.resolve msg.arg = some conn) {r : Option WvDBusServer}
    (heffect : Effect s conn msg r) : ∃ s', r = some s' ∧ (s'.record (asked conn msg)).Inv := by
  unfold asked
  cases heffect with
  | own hrequests =>
    rw [if_pos hrequests]
    exact ⟨_, rfl, h.register msg.arg hconn⟩
  | release hrequests hreleases =>
    rw [if_neg (Bool.eq_false_iff.mp hrequests), if_pos hreleases]
    exact h.release (hproper hreleases)
  | other hrequests hreleases s' hsame =>
    rw [if_neg (Bool.eq_false_iff.mp hrequests), if_neg (Bool.eq_false_iff.mp hreleases)]
    refine ⟨s', rfl, ?_⟩
    rw [record_nil]
    exact h.same hsame

theorem Inv.step (h : s.Inv) {i : Input} (hi : s.Proper i) :
    ∃ s' o, s.step i = some (s', o) ∧ s'.Inv := by
  cases i with
  | new_connection => exact ⟨_, _, rfl, h.new_connection⟩
  | message conn msg outside =>
    unfold WvDBusServer.step
    dsimp only
    split
    · rename_i hconn
      obtain ⟨s', hs', hinv⟩ := h.message hconn (hi hconn) (effect_filter_func outside conn msg)
      obtain ⟨r, hr, rfl⟩ := map_eq_some_iff.mp hs'
      exact ⟨_, _, by rw [hr]; rfl, hinv⟩
    · exact ⟨s, _, rfl, h⟩
  | conn_closed conn =>
    unfold WvDBusServer.step
    dsimp only
    split
    · rename_i hconn
      exact ⟨_, _, rfl, h.close hconn⟩
    · exact ⟨s, _, rfl, h⟩

theorem proper_of_step {i : Input} {s' : WvDBusServer} {o : List (Nat × Outgoing)}
    (hstep : s.step i = some (s', o)) : s.Proper i := by
  cases i with
  | new_connection | conn_closed => trivial
  | message conn msg outside =>
    intro hconn hreleases
    by_contra hother
    rw [WvDBusServer.step, if_pos hconn] at hstep
    obtain ⟨r, hr, -⟩ := Option.map_eq_some_iff.mp hstep
    have heffect := effect_filter_func (s := s) outside conn msg
    rw [hr] at heffect
    generalize hresult : Option.map Prod.fst (some r) = result at heffect
    cases heffect with
    | own hrequests =>
      have hmethod := (Bool.and_eq_true_iff.mp hrequests).2
      have hnot : msg.method "ReleaseName" = false := method_ne hmethod (by decide)
      rw [releases, hnot, Bool.and_false] at hreleases
      cases hreleases
    | release =>
      rw [(unregister_name_eq_none msg.arg conn).mpr hother] at hresult
      cases hresult
    | other _ hno =>
      rw [hreleases] at hno
      cases hno

/-- In a run the table is sound, no assertion fails and a release by someone else changes nothing,
if and only if connections release only names that they own. -/
theorem table_sound_iff (inputs : List Input) :
    machine.Runs Keeps {} inputs ↔ machine.Along Proper {} inputs := by
  have hstart : Inv {} := by
    refine ⟨⟨?_, ?_, ?_⟩, ?_, ?_, ?_⟩
    · exact nofun
    · exact nofun
    · exact nofun
    · exact nofun
    · exact nofun
    · exact nofun
  constructor
  · intro hruns
    have hcond : ∀ (s : WvDBusServer) i s' o, s.Inv → machine.step s i = some (s', o) →
        Keeps s i s' o → s.Proper i := fun _ _ _ _ _ hstep _ => proper_of_step hstep
    refine Lib.Machine.along_of_runs hcond ?_ hstart hruns
    intro s i s' o h hi hstep
    obtain ⟨r, p, hr, hinv⟩ := h.step hi
    cases hr.symm.trans hstep
    exact hinv
  · intro halong
    have hstep : ∀ (s : WvDBusServer) i, s.Inv → s.Proper i →
        ∃ s' o, machine.step s i = some (s', o) ∧ Keeps s i s' o ∧ s'.Inv := by
      intro s i h hi
      obtain ⟨s', o, hs', hinv⟩ := h.step hi
      refine ⟨s', o, hs', ⟨hinv.sound, ?_⟩, hinv⟩
      rintro conn msg outside rfl hreleases hother
      by_cases hconn : conn ∈ s.all_conns
      · exact absurd (hi hconn hreleases) hother
      · rw [WvDBusServer.step, if_neg hconn] at hs'
        cases hs'
        rfl
    exact Lib.Machine.runs_of_along hstep hstart halong

def nowhere : Outside where
  get_uid _ := none
  wv_username_from_uid _ := none
  peercert _ := none
  get_fingerprint cert := cert

def call (member arg : String) : DBusMsg where
  path := some (bytes "/org/freedesktop/DBus")
  dest := DBusMsg.bus
  member := some (bytes member)
  arg := some (bytes arg)

/-- The only connection releases a name that nobody has. -/
theorem release_aborts : ¬ ∀ inputs, machine.Runs Keeps {} inputs := by
  intro h
  obtain ⟨_, _, h₁, -, s, o, h₂, -⟩ :=
    h [.new_connection, .message 1 (call "ReleaseName" "a.b") nowhere]
  cases h₁
  have hproper : Proper (({} : WvDBusServer).new_connection_cb.record [.own (some (uniquename 1)) 1])
      (.message 1 (call "ReleaseName" "a.b") nowhere) := proper_of_step h₂
  exact absurd (hproper (by decide) (by decide)) (by decide)

end WvDBusServer

end WvStreams
