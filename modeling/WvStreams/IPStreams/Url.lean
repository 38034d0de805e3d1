import Mathlib.Data.List.Find
import WvStreams.Strings.Integer

/-!
# `WvUrl`

The parser looks for each separator in all that is left of the string, and goes a fixed number of
bytes on behind the protocol. `reads_back` says which URLs it takes apart as they were put
together, and for which strings it stays inside them. A pointer is the memory from the place
that it points to on, which is empty behind the end.
-/

namespace WvStreams

open List Option CStr

open WvFastString

structure DefaultPort where
  proto : Str
  port : Int
  uses_slashes : Bool
  deriving DecidableEq

/-- The entries in front of the one without a name. -/
def portmap : List DefaultPort :=
  [⟨bytes "exchangeits", 7070, false⟩, ⟨bytes "exchangeit", 6969, false⟩, ⟨bytes "https", 443, true⟩,
    ⟨bytes "http", 80, true⟩, ⟨bytes "file", 0, true⟩, ⟨bytes "sip", 5060, false⟩,
    ⟨bytes "ldaps", 636, false⟩, ⟨bytes "ldap", 389, false⟩, ⟨bytes "ftp", 21, true⟩]

def portmapEntry (proto : Str) : Option DefaultPort :=
  portmap.find? fun p => p.proto.isPrefixOf proto

def get_default_port (proto : Str) : Int := ((portmapEntry proto).map DefaultPort.port).getD (-1)

def protocol_uses_slashes (proto : Str) : Bool :=
  ((portmapEntry proto).map DefaultPort.uses_slashes).getD false

/-- A URL; `addr` says whether there is an address, and a string that was not set is empty. -/
structure WvUrl where
  proto : Str := []
  hostname : Str := []
  user : Str := []
  password : Str := []
  port : Int := 0
  resolving : Bool := true
  addr : Bool := false
  file : Str := []
  err : Str := bytes "No error"
  deriving DecidableEq

namespace WvUrl

def str (memory : Str) : Str := memory.takeWhile (· ≠ 0)

/-- `trim_string`, with the memory behind the string. -/
def trim_string (url : Str) : Str :=
  (trimEnd url ++ List.replicate (url.length - (trimEnd url).length + 1) 0).dropWhile isspace

def isblank (c : Byte) : Bool := c = 32 || c = 9 || c = 13 || c = 10

/-- A zero is stored at the first `c`, if there is one: what is in front of it, and behind it. -/
def cut (s : Str) (c : Byte) : Option (Str × Str) :=
  (CStr.strchr s c).map fun cptr => (s.takeWhile (· ≠ c), cptr.tail)

/-- The user and the password, and what is left of the string. -/
def userinfo (wptr : Str) : Str × Str × Str :=
  match cut wptr 64 with
  | none => ([], [], wptr)
  | some (user, rest) =>
    match cut user 58 with
    | none => (user, [], rest)
    | some (name, password) => if password ≠ [] then (name, password, rest) else (user, [], rest)

def resolve (u : WvUrl) : WvUrl := { u with resolving := false, addr := true }

def location (proto : Str) (use_slashes : Bool) (user password wptr : Str) : WvUrl :=
  let (wptr, file) :=
    match CStr.strchr wptr 47 with
    | none => (wptr, if use_slashes then [47] else [])
    | some cptr => (wptr.takeWhile (· ≠ 47), cptr)
  let (hostname, port) :=
    match CStr.strchr wptr 58 with
    | none => (wptr, get_default_port proto)
    | some cptr => (wptr.takeWhile (· ≠ 58), atoi cptr.tail)
  resolve { proto, user, password, hostname, port, file }

def authority (proto : Str) (use_slashes : Bool) (wptr : Str) : WvUrl :=
  let (user, password, wptr) := userinfo wptr
  location proto use_slashes user password wptr

/-- The constructor. It has no result if it reads behind the end of the string. -/
def new (url : Str) : Option WvUrl :=
  let wptr := trim_string url
  let wptr := wptr.set ((str wptr).takeWhile (!isblank ·)).length 0
  let text := str wptr
  if get_default_port text < 0 then
    some { err := bytes "WvUrl cannot handle the given protocol." }
  else if 58 ∉ text then some { err := bytes "No colon after the protocol." }
  else
    let proto := text.takeWhile (· ≠ 58)
    let use_slashes := protocol_uses_slashes proto
    let wptr := wptr.drop (proto.length + if use_slashes then 3 else 1)
    if wptr = [] then none else some (authority proto use_slashes (str wptr))

def isok (u : WvUrl) : Bool := u.port ≠ 0 && (u.resolving || u.addr)

/-- `operator WvString`; a URL that is ok has a hostname. -/
def print (u : WvUrl) : Str :=
  if !u.isok then bytes "(Invalid URL: " ++ u.err ++ bytes ")"
  else
    let protostr :=
      if protocol_uses_slashes u.proto then u.proto ++ bytes "://" else u.proto ++ bytes ":"
    let userstr :=
      if u.user ≠ [] then
        u.user ++ if u.password ≠ [] then bytes ":" ++ u.password ++ bytes "@" else bytes "@"
      else []
    let portstr :=
      if u.port ≠ 0 ∧ u.port ≠ get_default_port u.proto then bytes ":" ++ ofInt .int u.port
      else []
    protostr ++ userstr ++ u.hostname ++ portstr ++ u.file

/-! ## Components -/

/-- What a URL is put together from. An empty user or password is one that is absent. -/
structure Components where
  proto : DefaultPort
  user : Str
  password : Str
  host : Str
  port : Option Nat
  path : Str
  known : proto ∈ portmap
  user_bytes : ∀ c ∈ user, c ≠ 47 ∧ c ≠ 64 ∧ c ≠ 58 ∧ c ≠ 0
  password_bytes : ∀ c ∈ password, c ≠ 47 ∧ c ≠ 64 ∧ c ≠ 58 ∧ c ≠ 0
  user_of_password : password ≠ [] → user ≠ []
  host_bytes : ∀ c ∈ host, c ≠ 47 ∧ c ≠ 58 ∧ c ≠ 64 ∧ isspace c = false ∧ c ≠ 0
  port_range : ∀ n ∈ port, 1 ≤ n ∧ n ≤ 65535
  path_head : ∀ c ∈ path.head?, c = 47
  path_bytes : ∀ c ∈ path, isspace c = false ∧ c ≠ 0

namespace Components

def userpart (c : Components) : Str :=
  if c.user = [] then []
  else c.user ++ (if c.password = [] then [] else 58 :: c.password) ++ [64]

def portpart (c : Components) : Str :=
  match c.port with
  | none => []
  | some n => 58 :: ofInt .int n

def separator (c : Components) : Str := if c.proto.uses_slashes then bytes "://" else bytes ":"

def compose (c : Components) : Str :=
  c.proto.proto ++ c.separator ++ c.userpart ++ c.host ++ c.portpart ++ c.path

def url (c : Components) : WvUrl where
  proto := c.proto.proto
  hostname := c.host
  user := c.user
  password := c.password
  port := (c.port.map Int.ofNat).getD c.proto.port
  resolving := false
  addr := true
  file := if c.path = [] ∧ c.proto.uses_slashes then [47] else c.path

/-- The parser finds the components again, also in what is printed for them. -/
structure Right (c : Components) : Prop where
  composed : new c.compose = some c.url
  printed : new c.url.print = some c.url

/-- There is no other text that is taken for a user, no byte at which the string is cut off, and the
port does not stand for an error. -/
structure Plain (c : Components) : Prop where
  path : c.user = [] → 64 ∉ c.path
  user : ∀ b ∈ c.user, isblank b = false
  password : ∀ b ∈ c.password, isblank b = false
  port : c.port = none → c.proto.port ≠ 0

end Components

/-- The string has two more bytes behind the colon of a protocol that uses slashes. -/
def Slashed (s : Str) : Prop :=
  ∀ lead proto tail, s = lead ++ proto ++ 58 :: tail → (∀ c ∈ lead, isspace c = true) →
    (∀ c ∈ proto, c ≠ 58 ∧ isblank c = false) → protocol_uses_slashes proto = true → 2 ≤ tail.length

/-! ## The protocol -/

variable {a s : Str} {p : DefaultPort}

theorem isPrefixOf_cut {q b : Str} {c : Byte} (hq : c ∉ q) :
    q.isPrefixOf (a ++ c :: b) = q.isPrefixOf a := by
  rw [Bool.eq_iff_iff, isPrefixOf_iff_prefix, isPrefixOf_iff_prefix]
  constructor
  · intro h
    have ha : a <+: a ++ c :: b := prefix_append _ _
    by_cases hlen : q.length ≤ a.length
    · exact prefix_of_prefix_length_le h ha hlen
    · have hcut : a ++ [c] <+: a ++ c :: b := (prefix_append_right_inj a).mpr ⟨b, rfl⟩
      have hwith := prefix_of_prefix_length_le hcut h (by
        rw [length_append, length_singleton]
        omega)
      exact absurd (hwith.mem (by simp)) hq
  · intro h
    exact h.trans (prefix_append _ _)

theorem portmap_proto : ∀ p ∈ portmap, 58 ∉ p.proto ∧ 0 ≤ p.port ∧
    (∀ c ∈ p.proto, c ≠ 58 ∧ isblank c = false ∧ c ≠ 0) ∧
    (∃ c ∈ p.proto.head?, isspace c = false) ∧ portmapEntry p.proto = some p := by
  decide +kernel

theorem entry_cut (a b : Str) : portmapEntry (a ++ 58 :: b) = portmapEntry a :=
  find?_congr fun p hp => isPrefixOf_cut (portmap_proto p hp).1

theorem mem_of_entry (h : portmapEntry a = some p) : p ∈ portmap ∧ p.proto <+: a :=
  ⟨mem_of_find?_eq_some h, isPrefixOf_iff_prefix.mp
    (find?_some (p := fun q : DefaultPort => q.proto.isPrefixOf a) h)⟩

theorem head_of_entry (h : portmapEntry a = some p) : ∃ c s, a = c :: s ∧ isspace c = false := by
  obtain ⟨hmem, t, rfl⟩ := mem_of_entry h
  obtain ⟨-, -, -, ⟨c, hhead, hc⟩, -⟩ := portmap_proto p hmem
  obtain ⟨s, hs⟩ := head?_eq_some_iff.mp hhead
  exact ⟨c, s ++ t, by rw [hs]; rfl, hc⟩

theorem get_default_port_eq (h : portmapEntry a = some p) : get_default_port a = p.port := by
  rw [get_default_port, h]
  rfl

theorem protocol_uses_slashes_eq (h : portmapEntry a = some p) :
    protocol_uses_slashes a = p.uses_slashes := by
  rw [protocol_uses_slashes, h]
  rfl

theorem takeWhile_cut {b : Str} {d : Byte} (h : d ∉ a) : (a ++ d :: b).takeWhile (· ≠ d) = a :=
  takeWhile_append_of_neg (fun e he => decide_eq_true fun heq => h (heq ▸ he)) fun e he => by
    obtain rfl := some.inj he
    simp

theorem str_append {text rest : Str} (h : 0 ∉ text) : str (text ++ 0 :: rest) = text :=
  takeWhile_cut h

/-- What is left of a string: up to the first blank, if there are others in front of it. -/
def word (s : Str) : Str := (trimString s).takeWhile (!isblank ·)

theorem trim_string_eq (s : Str) : trim_string s =
    trimString s ++ replicate (s.length - (trimEnd s).length + 1) 0 := by
  have hsplit : trimEnd s = (trimEnd s).takeWhile isspace ++ trimString s :=
    takeWhile_append_dropWhile.symm
  rw [trim_string]
  nth_rewrite 1 [hsplit]
  rw [append_assoc]
  refine dropWhile_append_of_neg (fun c hc => mem_takeWhile_imp hc) fun c hc => ?_
  cases htrim : trimString s with
  | nil =>
    rw [htrim, nil_append, replicate_succ] at hc
    obtain rfl := some.inj hc
    rfl
  | cons d t =>
    rw [htrim] at hc
    obtain rfl := some.inj hc
    have hhead : (trimEnd s).find? (!isspace ·) = some d := by
      rw [find?_not_eq_head?_dropWhile]
      exact congrArg head? htrim
    simpa using find?_some hhead

theorem new_word (h : 0 ∉ s) :
    ∃ d, (word s).length + d.length = (trimString s).length + (s.length - (trimEnd s).length) ∧
      new s =
        if get_default_port (word s) < 0 then
          some { err := bytes "WvUrl cannot handle the given protocol." }
        else if 58 ∉ word s then some { err := bytes "No colon after the protocol." }
        else
          let proto := (word s).takeWhile (· ≠ 58)
          let use_slashes := protocol_uses_slashes proto
          let wptr := (word s ++ 0 :: d).drop (proto.length + if use_slashes then 3 else 1)
          if wptr = [] then none else some (authority proto use_slashes (str wptr)) := by
  have hzero : 0 ∉ trimString s := fun hmem =>
    h ((List.rdropWhile_prefix _ _).mem ((dropWhile_suffix _).mem hmem))
  have hsplit : word s ++ (trimString s).dropWhile (!isblank ·) = trimString s :=
    takeWhile_append_dropWhile
  have hword : 0 ∉ word s := fun hmem => hzero (hsplit ▸ mem_append_left _ hmem)
  obtain ⟨zeros, hzeros⟩ : ∃ zeros, zeros = s.length - (trimEnd s).length := ⟨_, rfl⟩
  obtain ⟨b, d, hd⟩ : ∃ b d, (trimString s).dropWhile (!isblank ·) ++
      replicate (zeros + 1) 0 = b :: d :=
    exists_cons_of_ne_nil (by simp)
  have hset : (trimString s ++ replicate (zeros + 1) 0).set (word s).length 0 =
      word s ++ 0 :: d := by
    rw [← hsplit, append_assoc, hd, set_append_right _ _ (Nat.le_refl _), Nat.sub_self]
    rfl
  refine ⟨d, ?_, ?_⟩
  · have hone := congrArg length hsplit
    have htwo := congrArg length hd
    rw [length_append] at hone htwo
    rw [length_replicate, length_cons] at htwo
    omega
  · have hstr : str (trimString s ++ replicate (zeros + 1) 0) = trimString s :=
      str_append hzero
    have hset' : (trimString s ++ replicate (zeros + 1) 0).set
        ((trimString s).takeWhile (!isblank ·)).length 0 = word s ++ 0 :: d := hset
    rw [new, trim_string_eq, ← hzeros]
    rw [hstr, hset', str_append hword]

/-- The constructor goes on two bytes further if the protocol uses slashes. -/
def skipped (p : DefaultPort) : Nat := if p.uses_slashes then 2 else 0

theorem new_protocol {proto more : Str} (h : 0 ∉ s) (hword : word s = proto ++ 58 :: more)
    (hproto : 58 ∉ proto) (hp : portmapEntry proto = some p) :
    ∃ d, proto.length + 1 + more.length + d.length =
        (trimString s).length + (s.length - (trimEnd s).length) ∧ new s =
        if (more ++ 0 :: d).drop (skipped p) = [] then none
        else some (authority proto p.uses_slashes (str ((more ++ 0 :: d).drop (skipped p)))) := by
  obtain ⟨d, hlength, hnew⟩ := new_word h
  have hentry := entry_cut proto more
  rw [hp] at hentry
  have hport : ¬ get_default_port (proto ++ 58 :: more) < 0 := by
    rw [get_default_port_eq hentry]
    exact not_lt.mpr (portmap_proto p (mem_of_entry hp).1).2.1
  have hfirst : (proto ++ 58 :: more).takeWhile (· ≠ 58) = proto := takeWhile_cut hproto
  have hdrop (k : Nat) : (proto ++ 58 :: more ++ 0 :: d).drop (proto.length + (k + 1)) =
      (more ++ 0 :: d).drop k := by
    rw [append_assoc, drop_length_add_append]
    rfl
  refine ⟨d, ?_, ?_⟩
  · rw [hword, length_append, length_cons] at hlength
    omega
  · have huses := protocol_uses_slashes_eq hp
    rw [hword, if_neg hport, if_neg (by simp), hfirst] at hnew
    rw [hnew, skipped]
    dsimp only
    rw [← huses]
    cases protocol_uses_slashes proto with
    | true => exact congrArg (fun wptr => if wptr = [] then none else
        some (authority proto true (str wptr))) (hdrop 2)
    | false => exact congrArg (fun wptr => if wptr = [] then none else
        some (authority proto false (str wptr))) (hdrop 0)

/-- What is behind the colon, which is cut off at the first blank. -/
def behind (tail : Str) : Str := (trimEnd tail).takeWhile (!isblank ·)

theorem word_eq {lead proto : Str} (tail : Str) (hlead : ∀ c ∈ lead, isspace c = true)
    (hproto : ∀ c ∈ proto, c ≠ 58 ∧ isblank c = false) (hp : portmapEntry proto = some p) :
    word (lead ++ proto ++ 58 :: tail) = proto ++ 58 :: behind tail ∧
      (trimString (lead ++ proto ++ 58 :: tail)).length +
        ((lead ++ proto ++ 58 :: tail).length - (trimEnd (lead ++ proto ++ 58 :: tail)).length) =
        proto.length + 1 + tail.length := by
  obtain ⟨c, s, hc, hspace⟩ := head_of_entry hp
  have hle : (trimEnd tail).length ≤ tail.length := (List.rdropWhile_prefix _ _).length_le
  have hend : trimEnd (lead ++ proto ++ 58 :: tail) = lead ++ (proto ++ 58 :: trimEnd tail) := by
    have happend := trimEnd_append (a := lead ++ proto ++ [58])
      (fun c hc => by
        rw [getLast?_concat] at hc
        obtain rfl := some.inj hc
        rfl) tail
    simpa only [append_assoc, singleton_append] using happend
  have htrim : trimString (lead ++ proto ++ 58 :: tail) = proto ++ 58 :: trimEnd tail := by
    rw [trimString, hend]
    refine dropWhile_append_of_neg hlead fun d hd => ?_
    rw [hc] at hd
    obtain rfl := some.inj hd
    exact hspace
  have hplain : ∀ c ∈ proto ++ [58], (!isblank c) = true := by
    rw [forall_mem_append]
    exact ⟨fun c hc => by rw [(hproto c hc).2]; rfl, forall_mem_singleton.mpr rfl⟩
  constructor
  · rw [word, htrim, ← singleton_append, ← append_assoc,
      takeWhile_append_of_pos hplain, append_assoc]
    rfl
  · rw [htrim, hend]
    simp only [length_append, length_cons]
    omega

theorem entry_of_uses_slashes (h : protocol_uses_slashes a = true) :
    ∃ p, portmapEntry a = some p ∧ p.uses_slashes = true := by
  rw [protocol_uses_slashes] at h
  cases hentry : portmapEntry a with
  | none =>
    rw [hentry] at h
    cases h
  | some p =>
    rw [hentry] at h
    exact ⟨p, rfl, h⟩

theorem isSome_new (h : 0 ∉ s) : (new s).isSome ↔ Slashed s := by
  constructor
  · rintro hsome lead proto tail rfl hlead hproto huses
    obtain ⟨p, hp, hslashes⟩ := entry_of_uses_slashes huses
    obtain ⟨hword, hlength⟩ := word_eq tail hlead hproto hp
    obtain ⟨d, hmemory, hnew⟩ := new_protocol h hword (fun hmem => (hproto 58 hmem).1 rfl) hp
    rw [skipped, if_pos hslashes] at hnew
    by_contra hshort
    have hnone : (behind tail ++ 0 :: d).drop 2 = [] := by
      apply drop_eq_nil_of_le
      rw [length_append, length_cons]
      omega
    rw [hnew, if_pos hnone] at hsome
    cases hsome
  · intro hslashed
    obtain ⟨d, -, hnew⟩ := new_word h
    by_cases hport : get_default_port (word s) < 0
    · rw [hnew, if_pos hport]
      rfl
    · by_cases hcolon : 58 ∉ word s
      · rw [hnew, if_neg hport, if_pos hcolon]
        rfl
      · obtain ⟨proto, more, hword, hproto⟩ :=
          eq_append_cons_of_mem (Decidable.not_not.mp hcolon)
        obtain ⟨p, hp⟩ : ∃ p, portmapEntry proto = some p := by
          rw [hword, get_default_port, entry_cut] at hport
          cases hentry : portmapEntry proto with
          | none =>
            rw [hentry] at hport
            exact absurd (by decide) hport
          | some p => exact ⟨p, rfl⟩
        have hblank : ∀ c ∈ proto, c ≠ 58 ∧ isblank c = false := by
          intro c hc
          refine ⟨fun heq => hproto (heq ▸ hc), ?_⟩
          have hmem : c ∈ word s := hword ▸ mem_append_left _ hc
          simpa using mem_takeWhile_imp hmem
        obtain ⟨w, hw⟩ := takeWhile_prefix (!isblank ·) (l := trimString s)
        obtain ⟨trail, htrail⟩ := rdropWhile_prefix isspace s
        have hs : s = (trimEnd s).takeWhile isspace ++ proto ++ 58 :: (more ++ w ++ trail) := by
          have htrim : trimString s = proto ++ 58 :: more ++ w := by
            rw [← hword]
            exact hw.symm
          have hlead : (trimEnd s).takeWhile isspace ++ trimString s = trimEnd s :=
            takeWhile_append_dropWhile
          have hall : (trimEnd s).takeWhile isspace ++ trimString s ++ trail = s := by
            rw [hlead]
            exact htrail
          rw [htrim] at hall
          simpa only [append_assoc, cons_append] using hall.symm
        have hlead : ∀ c ∈ (trimEnd s).takeWhile isspace, isspace c = true :=
          fun c hc => mem_takeWhile_imp hc
        obtain ⟨-, hlength⟩ := word_eq (more ++ w ++ trail) hlead hblank hp
        rw [← hs] at hlength
        obtain ⟨d', hmemory, hnew'⟩ := new_protocol h hword hproto hp
        have hmore : skipped p ≤ more.length + d'.length := by
          rw [skipped]
          split
          · rename_i huses
            have htwo := hslashed _ _ _ hs hlead hblank
              ((protocol_uses_slashes_eq hp).trans huses)
            omega
          · exact Nat.zero_le _
        have hne : (more ++ 0 :: d').drop (skipped p) ≠ [] := by
          intro hnil
          have hlen := congrArg length hnil
          rw [length_drop, length_append, length_cons, length_nil] at hlen
          omega
        rw [hnew', if_neg hne]
        rfl

/-! ## What is behind the protocol -/

theorem cut_append {b : Str} {c : Byte} (h : c ∉ a) : cut (a ++ c :: b) c = some (a, b) := by
  rw [cut, strchr_append h, map_some, takeWhile_cut h]
  rfl

theorem cut_none {c : Byte} (h : c ∉ s) : cut s c = none := by
  rw [cut, strchr_none h]
  rfl

theorem userinfo_none (h : 64 ∉ s) : userinfo s = ([], [], s) := by
  rw [userinfo, cut_none h]

theorem userinfo_user {user rest : Str} (h : 64 ∉ user) (h' : 58 ∉ user) :
    userinfo (user ++ 64 :: rest) = (user, [], rest) := by
  rw [userinfo, cut_append h]
  dsimp only
  rw [cut_none h']

theorem userinfo_password {user password rest : Str} (h : 64 ∉ user ++ 58 :: password)
    (h' : 58 ∉ user) (hne : password ≠ []) :
    userinfo (user ++ 58 :: password ++ 64 :: rest) = (user, password, rest) := by
  rw [userinfo, cut_append h]
  dsimp only
  rw [cut_append h']
  exact if_pos hne

theorem userinfo_ne {front : Str} (rest : Str) (h : 64 ∉ front) (hne : front ≠ []) :
    (userinfo (front ++ 64 :: rest)).1 ≠ [] ∨ (userinfo (front ++ 64 :: rest)).2.1 ≠ [] := by
  rw [userinfo, cut_append h]
  dsimp only
  by_cases hcolon : 58 ∈ front
  · obtain ⟨name, password, rfl, hname⟩ := eq_append_cons_of_mem hcolon
    rw [cut_append hname]
    dsimp only
    by_cases hpassword : password ≠ []
    · rw [if_pos hpassword]
      exact Or.inr hpassword
    · rw [if_neg hpassword]
      exact Or.inl hne
  · rw [cut_none hcolon]
    exact Or.inl hne

namespace Components

variable (c : Components)

def text : Str := c.userpart ++ c.host ++ c.portpart ++ c.path

def slashes : Str := if c.proto.uses_slashes then [47, 47] else []

theorem compose_eq : c.compose = c.proto.proto ++ 58 :: (c.slashes ++ c.text) := by
  have hseparator : c.separator = 58 :: c.slashes := by
    rw [separator, slashes]
    split <;> rfl
  rw [compose, hseparator, text]
  simp only [append_assoc, cons_append]

theorem entry : portmapEntry c.proto.proto = some c.proto :=
  (portmap_proto c.proto c.known).2.2.2.2

theorem forall_text {P : Byte → Prop} (hcolon : P 58) (hat : P 64) (hdigit : ∀ b, isdigit b = true → P b)
    (huser : ∀ b ∈ c.user, P b) (hpassword : ∀ b ∈ c.password, P b) (hhost : ∀ b ∈ c.host, P b)
    (hpath : ∀ b ∈ c.path, P b) : ∀ b ∈ c.text, P b := by
  have huserpart : ∀ b ∈ c.userpart, P b := by
    rw [userpart]
    split
    · exact forall_mem_nil _
    · rw [forall_mem_append, forall_mem_append]
      refine ⟨⟨huser, ?_⟩, forall_mem_singleton.mpr hat⟩
      split
      · exact forall_mem_nil _
      · exact forall_mem_cons.mpr ⟨hcolon, hpassword⟩
  have hportpart : ∀ b ∈ c.portpart, P b := by
    rw [portpart]
    split
    · exact forall_mem_nil _
    · rename_i n _
      exact forall_mem_cons.mpr ⟨hcolon, fun b hb => hdigit b ((ofInt_nat .int n).2.1 b hb)⟩
  rw [text, forall_mem_append, forall_mem_append, forall_mem_append]
  exact ⟨⟨⟨huserpart, hhost⟩, hportpart⟩, hpath⟩

theorem ends_append {a b : Str} (ha : ∀ c ∈ a.getLast?, isspace c = false)
    (hb : ∀ c ∈ b.getLast?, isspace c = false) : ∀ c ∈ (a ++ b).getLast?, isspace c = false := by
  intro c hc
  rw [getLast?_append] at hc
  rcases or_eq_some_iff.mp hc with h | ⟨-, h⟩
  · exact hb c h
  · exact ha c h

theorem trimEnd_text : trimEnd (c.slashes ++ c.text) = c.slashes ++ c.text := by
  have hends {s : Str} (h : ∀ b ∈ s, isspace b = false) : ∀ b ∈ s.getLast?, isspace b = false :=
    fun b hb => h b (mem_of_getLast? hb)
  have hslashes : ∀ b ∈ c.slashes.getLast?, isspace b = false := by
    rw [slashes]
    split
    · rintro b ⟨⟩
      rfl
    · rintro b ⟨⟩
  have huserpart : ∀ b ∈ c.userpart.getLast?, isspace b = false := by
    rw [userpart]
    split
    · rintro b ⟨⟩
    · intro b hb
      rw [getLast?_concat] at hb
      obtain rfl := some.inj hb
      rfl
  have hportpart : ∀ b ∈ c.portpart.getLast?, isspace b = false := by
    apply hends
    rw [portpart]
    split
    · exact forall_mem_nil _
    · rename_i n _
      exact forall_mem_cons.mpr ⟨rfl, fun b hb =>
        isspace_of_isxdigit (isxdigit_of_isdigit ((ofInt_nat .int n).2.1 b hb))⟩
  apply trimEnd_eq_self
  refine ends_append hslashes (ends_append (ends_append (ends_append huserpart ?_) hportpart) ?_)
  · exact hends fun b hb => (c.host_bytes b hb).2.2.2.1
  · exact hends fun b hb => (c.path_bytes b hb).1

theorem zero_notMem_compose : 0 ∉ c.compose := by
  have htext : ∀ b ∈ c.text, b ≠ 0 :=
    c.forall_text (by decide) (by decide) (by rintro b hb rfl; cases hb)
      (fun b hb => (c.user_bytes b hb).2.2.2) (fun b hb => (c.password_bytes b hb).2.2.2)
      (fun b hb => (c.host_bytes b hb).2.2.2.2) fun b hb => (c.path_bytes b hb).2
  have hslashes : 0 ∉ c.slashes := by
    rw [slashes]
    split <;> decide
  rw [compose_eq, mem_append, mem_cons, mem_append, not_or, not_or, not_or]
  exact ⟨fun h => ((portmap_proto c.proto c.known).2.2.1 0 h).2.2 rfl, by decide, hslashes,
    fun h => htext 0 h rfl⟩

theorem new_compose : new c.compose = some (authority c.proto.proto c.proto.uses_slashes
    (c.text.takeWhile (!isblank ·))) := by
  have hproto := (portmap_proto c.proto c.known).2.2.1
  have hblank : ∀ b ∈ c.proto.proto, b ≠ 58 ∧ isblank b = false :=
    fun b hb => ⟨(hproto b hb).1, (hproto b hb).2.1⟩
  have hslashes : ∀ b ∈ c.slashes, (!isblank b) = true := by
    rw [slashes]
    split <;> decide
  have hbehind : behind (c.slashes ++ c.text) =
      c.slashes ++ c.text.takeWhile (!isblank ·) := by
    rw [behind, trimEnd_text, takeWhile_append_of_pos hslashes]
  have hlead : ∀ b ∈ ([] : Str), isspace b = true := forall_mem_nil _
  obtain ⟨hword, -⟩ := word_eq (c.slashes ++ c.text) hlead hblank c.entry
  rw [nil_append, ← compose_eq, hbehind] at hword
  obtain ⟨d, -, hnew⟩ := new_protocol c.zero_notMem_compose hword
    (fun h => (hblank 58 h).1 rfl) c.entry
  have hdrop : (c.slashes ++ c.text.takeWhile (!isblank ·) ++ 0 :: d).drop (skipped c.proto) =
      c.text.takeWhile (!isblank ·) ++ 0 :: d := by
    rw [slashes, skipped]
    split <;> rfl
  have hzero : 0 ∉ c.text.takeWhile (!isblank ·) := by
    intro h
    apply c.zero_notMem_compose
    rw [compose_eq]
    refine mem_append_right _ (mem_cons_of_mem _ (mem_append_right _ ?_))
    exact (List.takeWhile_prefix _).mem h
  rw [hnew, hdrop, if_neg (by simp), str_append hzero]

theorem notMem_portpart {b : Byte} (hcolon : b ≠ 58) (hdigit : isdigit b = false) :
    b ∉ c.portpart := by
  rw [portpart]
  split
  · exact not_mem_nil
  · rename_i n _
    rw [mem_cons, not_or]
    refine ⟨hcolon, fun h => ?_⟩
    rw [(ofInt_nat .int n).2.1 b h] at hdigit
    cases hdigit

theorem location_eq : location c.proto.proto c.proto.uses_slashes c.user c.password
    (c.host ++ c.portpart ++ c.path) = c.url := by
  have hslash : 47 ∉ c.host ++ c.portpart := by
    rw [mem_append, not_or]
    exact ⟨fun h => (c.host_bytes 47 h).1 rfl, c.notMem_portpart (by decide) rfl⟩
  have hcolon : 58 ∉ c.host := fun h => (c.host_bytes 58 h).2.1 rfl
  have hfile : (match CStr.strchr (c.host ++ c.portpart ++ c.path) 47 with
      | none => (c.host ++ c.portpart ++ c.path, if c.proto.uses_slashes then [47] else [])
      | some cptr => ((c.host ++ c.portpart ++ c.path).takeWhile (· ≠ 47), cptr)) =
      (c.host ++ c.portpart, c.url.file) := by
    rw [url]
    cases hpath : c.path with
    | nil =>
      rw [append_nil, strchr_none hslash]
      cases c.proto.uses_slashes <;> simp
    | cons b path =>
      obtain rfl := c.path_head b (by rw [hpath]; rfl)
      rw [strchr_append hslash, takeWhile_cut hslash]
      simp
  have hport : (match CStr.strchr (c.host ++ c.portpart) 58 with
      | none => (c.host ++ c.portpart, get_default_port c.proto.proto)
      | some cptr => ((c.host ++ c.portpart).takeWhile (· ≠ 58), atoi cptr.tail)) =
      (c.host, c.url.port) := by
    rw [url, portpart]
    cases hn : c.port with
    | none =>
      rw [append_nil, strchr_none hcolon, get_default_port_eq c.entry]
      rfl
    | some n =>
      obtain ⟨hne, hdigits, hvalue⟩ := ofInt_nat .int n
      have hrange := c.port_range n hn
      have hatoi := atoi_digits hne hdigits (by omega)
      rw [strchr_append hcolon, takeWhile_cut hcolon]
      dsimp only
      rw [tail_cons, hatoi, hvalue]
      rfl
  rw [location, hfile]
  dsimp only
  rw [hport]
  rfl

theorem at_notMem_user : 64 ∉ c.user := fun h => (c.user_bytes 64 h).2.1 rfl

theorem at_notMem_password : 64 ∉ c.password := fun h => (c.password_bytes 64 h).2.1 rfl

def login : Str := c.user ++ if c.password = [] then [] else 58 :: c.password

theorem at_notMem_login : 64 ∉ c.login := by
  rw [login, mem_append, not_or]
  refine ⟨c.at_notMem_user, ?_⟩
  split
  · exact not_mem_nil
  · rw [mem_cons, not_or]
    exact ⟨by decide, c.at_notMem_password⟩

theorem text_of_user (h : c.user ≠ []) :
    c.text = c.login ++ 64 :: (c.host ++ c.portpart ++ c.path) := by
  rw [text, userpart, if_neg h, login]
  simp only [append_assoc, cons_append, nil_append]

theorem text_of_nil (h : c.user = []) : c.text = c.host ++ c.portpart ++ c.path := by
  rw [text, userpart, if_pos h, nil_append]

theorem password_of_nil (h : c.user = []) : c.password = [] := by
  by_contra hne
  exact c.user_of_password hne h

theorem userinfo_text (h : c.user = [] → 64 ∉ c.path) :
    userinfo c.text = (c.user, c.password, c.host ++ c.portpart ++ c.path) := by
  by_cases hnil : c.user = []
  · have hnone : 64 ∉ c.host ++ c.portpart ++ c.path := by
      rw [mem_append, mem_append, not_or, not_or]
      exact ⟨⟨fun hmem => (c.host_bytes 64 hmem).2.2.1 rfl, c.notMem_portpart (by decide) rfl⟩, h hnil⟩
    rw [c.text_of_nil hnil, userinfo_none hnone, hnil, c.password_of_nil hnil]
  · have hat := c.at_notMem_login
    have hcolon : 58 ∉ c.user := fun hmem => (c.user_bytes 58 hmem).2.2.1 rfl
    rw [c.text_of_user hnil]
    rw [login] at hat ⊢
    by_cases hpassword : c.password = []
    · rw [if_pos hpassword, append_nil, userinfo_user c.at_notMem_user hcolon, hpassword]
    · rw [if_neg hpassword] at hat ⊢
      exact userinfo_password hat hcolon hpassword

theorem authority_text (h : c.user = [] → 64 ∉ c.path) :
    authority c.proto.proto c.proto.uses_slashes c.text = c.url := by
  rw [authority, c.userinfo_text h]
  exact c.location_eq

theorem authority_ne (hnil : c.user = []) (hpath : 64 ∈ c.path) :
    authority c.proto.proto c.proto.uses_slashes c.text ≠ c.url := by
  obtain ⟨front, rest, hsplit, hfront⟩ := eq_append_cons_of_mem hpath
  have hne : c.host ++ c.portpart ++ front ≠ [] := by
    intro hempty
    obtain ⟨-, rfl⟩ := append_eq_nil_iff.mp hempty
    have hhead := c.path_head 64 (by rw [hsplit]; rfl)
    exact absurd hhead (by decide)
  have hnot : 64 ∉ c.host ++ c.portpart ++ front := by
    rw [mem_append, mem_append, not_or, not_or]
    exact ⟨⟨fun hmem => (c.host_bytes 64 hmem).2.2.1 rfl, c.notMem_portpart (by decide) rfl⟩, hfront⟩
  intro heq
  have huser : (userinfo c.text).1 = [] := (congrArg WvUrl.user heq).trans hnil
  have hpassword : (userinfo c.text).2.1 = [] :=
    (congrArg WvUrl.password heq).trans (c.password_of_nil hnil)
  have htext : c.text = c.host ++ c.portpart ++ front ++ 64 :: rest := by
    rw [c.text_of_nil hnil, hsplit, ← append_assoc]
  rw [htext] at huser hpassword
  rcases userinfo_ne rest hnot hne with h | h
  · exact h huser
  · exact h hpassword

theorem takeWhile_text (huser : ∀ b ∈ c.user, isblank b = false)
    (hpassword : ∀ b ∈ c.password, isblank b = false) : c.text.takeWhile (!isblank ·) = c.text := by
  have hspace {b : Byte} (hb : isspace b = false) : isblank b = false := by
    rw [isblank, Bool.or_eq_false_iff, Bool.or_eq_false_iff, Bool.or_eq_false_iff]
    refine ⟨⟨⟨?_, ?_⟩, ?_⟩, ?_⟩ <;>
    · rw [decide_eq_false_iff_not]
      rintro rfl
      cases hb
  have hall : ∀ b ∈ c.text, isblank b = false :=
    c.forall_text rfl rfl
      (fun b hb => hspace (isspace_of_isxdigit (isxdigit_of_isdigit hb))) huser hpassword
      (fun b hb => hspace (c.host_bytes b hb).2.2.2.1) fun b hb => hspace (c.path_bytes b hb).1
  exact takeWhile_eq_self_iff.mpr fun b hb => by rw [hall b hb]; rfl

theorem authority_blank (hblank : ∃ b ∈ c.login, isblank b = true) :
    authority c.proto.proto c.proto.uses_slashes (c.text.takeWhile (!isblank ·)) ≠ c.url := by
  obtain ⟨b, hmem, hb⟩ := hblank
  have hne : c.user ≠ [] := by
    intro hnil
    rw [login, hnil, c.password_of_nil hnil, if_pos rfl, append_nil] at hmem
    cases hmem
  have hfront : c.text.takeWhile (!isblank ·) = c.login.takeWhile (!isblank ·) := by
    rw [c.text_of_user hne, takeWhile_append, if_neg]
    intro hlen
    have hself := (List.takeWhile_prefix (!isblank ·) (l := c.login)).eq_of_length hlen
    have hnot := takeWhile_eq_self_iff.mp hself b hmem
    rw [hb] at hnot
    cases hnot
  have hat : 64 ∉ c.login.takeWhile (!isblank ·) :=
    fun h => c.at_notMem_login ((List.takeWhile_prefix _).mem h)
  intro heq
  have huser : (userinfo (c.text.takeWhile (!isblank ·))).1 = c.user := congrArg WvUrl.user heq
  rw [hfront, userinfo_none hat] at huser
  exact hne huser.symm

theorem composed_iff : new c.compose = some c.url ↔ (c.user = [] → 64 ∉ c.path) ∧
    (∀ b ∈ c.user, isblank b = false) ∧ ∀ b ∈ c.password, isblank b = false := by
  rw [new_compose, some.injEq]
  constructor
  · intro heq
    have hlogin : ∀ b ∈ c.login, isblank b = false := by
      intro b hb
      by_contra hblank
      exact c.authority_blank ⟨b, hb, by simpa using hblank⟩ heq
    rw [login, forall_mem_append] at hlogin
    have hpassword : ∀ b ∈ c.password, isblank b = false := by
      intro b hb
      refine hlogin.2 b ?_
      rw [if_neg (ne_nil_of_mem hb)]
      exact mem_cons_of_mem _ hb
    refine ⟨fun hnil hpath => ?_, hlogin.1, hpassword⟩
    rw [c.takeWhile_text hlogin.1 hpassword] at heq
    exact c.authority_ne hnil hpath heq
  · rintro ⟨hpath, huser, hpassword⟩
    rw [c.takeWhile_text huser hpassword, c.authority_text hpath]

/-! ## What is printed -/

theorem new_invalid : new (bytes "(Invalid URL: No error)") =
    some { err := bytes "WvUrl cannot handle the given protocol." } := by
  decide +kernel

def shown : Components :=
  { c with
    port := if c.url.port = c.proto.port then none else c.port
    path := c.url.file
    port_range := by
      intro n hn
      split at hn
      · cases hn
      · exact c.port_range n hn
    path_head := by
      rw [url]
      dsimp only
      split
      · rintro b ⟨⟩
        rfl
      · exact c.path_head
    path_bytes := by
      rw [url]
      dsimp only
      split
      · exact List.forall_mem_singleton.mpr ⟨rfl, by decide⟩
      · exact c.path_bytes }

theorem url_shown : c.shown.url = c.url := by
  have hport : (c.shown.port.map Int.ofNat).getD c.proto.port = c.url.port := by
    show ((if c.url.port = c.proto.port then none else c.port).map Int.ofNat).getD c.proto.port = _
    split
    · rename_i heq
      exact heq.symm
    · rfl
  have hfile : (if c.url.file = [] ∧ c.proto.uses_slashes then [47] else c.url.file) =
      c.url.file := by
    rw [if_neg]
    rintro ⟨hnil, huses⟩
    rw [url] at hnil
    split at hnil
    · cases hnil
    · rename_i hnot
      exact hnot ⟨hnil, huses⟩
  show ({ c.url with
    port := (c.shown.port.map Int.ofNat).getD c.proto.port
    file := if c.url.file = [] ∧ c.proto.uses_slashes then [47] else c.url.file } : WvUrl) = c.url
  rw [hport, hfile]

theorem print_url (h : c.url.port ≠ 0) : c.url.print = c.shown.compose := by
  have hok : c.url.isok = true := by
    rw [isok, Bool.and_eq_true]
    exact ⟨by simpa using h, rfl⟩
  have hat : bytes "@" = [64] := rfl
  have hcolon : bytes ":" = [58] := rfl
  have hproto : (if protocol_uses_slashes c.url.proto then c.url.proto ++ bytes "://"
      else c.url.proto ++ bytes ":") = c.proto.proto ++ c.separator := by
    show (if protocol_uses_slashes c.proto.proto then _ else _) = _
    rw [protocol_uses_slashes_eq c.entry, separator]
    split <;> rfl
  have huser : (if c.url.user ≠ [] then
      c.url.user ++ if c.url.password ≠ [] then bytes ":" ++ c.url.password ++ bytes "@"
        else bytes "@"
      else []) = c.userpart := by
    show (if c.user ≠ [] then c.user ++ if c.password ≠ [] then bytes ":" ++ c.password ++ bytes "@"
      else bytes "@" else []) = c.userpart
    rw [userpart, hat, hcolon]
    by_cases hnil : c.user = []
    · rw [if_neg (not_not.mpr hnil), if_pos hnil]
    · rw [if_pos hnil, if_neg hnil]
      by_cases hpassword : c.password = []
      · rw [if_neg (not_not.mpr hpassword), if_pos hpassword, append_nil]
      · rw [if_pos hpassword, if_neg hpassword]
        simp only [append_assoc, cons_append, nil_append]
  have hport : (if c.url.port ≠ 0 ∧ c.url.port ≠ get_default_port c.url.proto then
      bytes ":" ++ ofInt .int c.url.port else []) = c.shown.portpart := by
    have hdefault : get_default_port c.url.proto = c.proto.port := get_default_port_eq c.entry
    rw [hdefault, portpart]
    show _ = match (if c.url.port = c.proto.port then none else c.port) with
      | none => []
      | some n => 58 :: ofInt .int n
    by_cases heq : c.url.port = c.proto.port
    · rw [if_neg fun hne => hne.2 heq, if_pos heq]
    · rw [if_pos ⟨h, heq⟩, if_neg heq]
      rw [url] at heq ⊢
      cases hn : c.port with
      | none =>
        rw [hn] at heq
        exact absurd rfl heq
      | some n => rfl
  rw [print, hok, if_neg (by decide)]
  rw [hproto, huser, hport]
  rfl

theorem printed_iff (h : (c.user = [] → 64 ∉ c.path) ∧ (∀ b ∈ c.user, isblank b = false) ∧
    ∀ b ∈ c.password, isblank b = false) :
    new c.url.print = some c.url ↔ (c.port = none → c.proto.port ≠ 0) := by
  have hport : c.url.port = 0 ↔ c.port = none ∧ c.proto.port = 0 := by
    rw [url]
    cases hn : c.port with
    | none => simp
    | some n =>
      have hrange := c.port_range n hn
      exact iff_of_false (by simp; omega) (by simp)
  constructor
  · intro hnew hnone hzero
    have hinvalid : c.url.print = bytes "(Invalid URL: No error)" := by
      have hbad : c.url.isok = false := by
        rw [isok, hport.mpr ⟨hnone, hzero⟩]
        rfl
      rw [print, hbad]
      rfl
    rw [hinvalid, new_invalid] at hnew
    have herr := congrArg (Option.map WvUrl.err) hnew
    exact absurd herr (by show ¬ some _ = some (bytes "No error"); decide +kernel)
  · intro hplain
    have hne : c.url.port ≠ 0 := fun hzero => hplain (hport.mp hzero).1 (hport.mp hzero).2
    rw [c.print_url hne, ← c.url_shown, c.shown.composed_iff]
    refine ⟨fun hnil => ?_, h.2⟩
    show 64 ∉ c.url.file
    rw [url]
    dsimp only
    split
    · decide
    · exact h.1 hnil

theorem right_iff : c.Right ↔ c.Plain := by
  constructor
  · rintro ⟨hcomposed, hprinted⟩
    have hparts := c.composed_iff.mp hcomposed
    exact ⟨hparts.1, hparts.2.1, hparts.2.2, (c.printed_iff hparts).mp hprinted⟩
  · rintro ⟨hpath, huser, hpassword, hport⟩
    exact ⟨c.composed_iff.mpr ⟨hpath, huser, hpassword⟩,
      (c.printed_iff ⟨hpath, huser, hpassword⟩).mpr hport⟩

end Components

/-- Which URLs are read as they were put together, and which strings are not read behind their
ends. -/
theorem reads_back (c : Components) (s : { s : Str // 0 ∉ s }) :
    (c.Right ↔ c.Plain) ∧ ((new s).isSome ↔ Slashed s) :=
  ⟨c.right_iff, isSome_new s.2⟩

def atPath : Components where
  proto := ⟨bytes "http", 80, true⟩
  user := []
  password := []
  host := bytes "h"
  port := none
  path := bytes "/a@b"
  known := by decide +kernel
  user_bytes := List.forall_mem_nil _
  password_bytes := List.forall_mem_nil _
  user_of_password := fun h => h
  host_bytes := by decide +kernel
  port_range := by simp
  path_head := by decide +kernel
  path_bytes := by decide +kernel

/-- The `@` in a path comes in front of the host, and `http:` is too short. -/
theorem not_reads_back : (¬ ∀ c : Components, c.Right) ∧
    ¬ ∀ s : { s : Str // 0 ∉ s }, (new s).isSome := by
  constructor
  · intro h
    exact (atPath.right_iff.mp (h atPath)).path rfl (by decide +kernel)
  · intro h
    have hnone : new (bytes "http:") = none := by decide +kernel
    have hsome := h ⟨bytes "http:", by decide +kernel⟩
    rw [hnone] at hsome
    cases hsome

end WvUrl

end WvStreams
