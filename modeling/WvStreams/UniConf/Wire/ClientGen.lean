import WvStreams.UniConf.Wire.Daemon

/-!
# The requests of `UniClientGen`

A call that waits sets `cmdinprogress` and polls the connection until a reply has cleared it. What
the generator makes of a message is in `Progress.told`. The replies carry no number, so that any
of them ends the call in progress.
-/

namespace WvStreams

open Lib UniClientConn List UniConfDaemonConn

namespace UniClientGen

/-- The next word of a payload with blanks between them, and what is left of it. -/
def getword (payload : Str) : WvString × Str :=
  match wvtclGetword (.ofChar 32) true payload with
  | some (word, rest) => (some word, rest)
  | none => (none, payload)

/-- The generator apart from its connection; `deltas` are the changes that were announced. -/
structure Progress where
  version : Int := 0
  cmdinprogress : Bool := false
  cmdsuccess : Bool := false
  result_key : WvString := none
  result : WvString := none
  result_list : Option (List (UniConfKey × WvString)) := none
  deltas : List (WvString × WvString) := []

/-- The greeting is that of a UniConf server. -/
def greeted (payload : Str) : Bool :=
  match wvtclDecode (.ofChar 32) true payload with
  | server :: _ => server.take 7 == bytes "UniConf"
  | [] => false

namespace Progress

/-- The switch of `conncallback`. -/
def told (p : Progress) (command : Command) (payload : Str) : Progress :=
  let key := (getword payload).1
  let value := (getword (getword payload).2).1
  match command with
  | .REPLY_OK => { p with cmdsuccess := true, cmdinprogress := false }
  | .REPLY_FAIL => { p with result_key := none, cmdsuccess := false, cmdinprogress := false }
  | .REPLY_CHILD | .REPLY_ONEVAL =>
    if key.isSome ∧ value.isSome then
      { p with result_key := key, result := value, cmdsuccess := true, cmdinprogress := false }
    else { p with cmdinprogress := false }
  | .PART_VALUE =>
    match key, value with
    | some key, some value =>
      { p with result_list := p.result_list.map (· ++ [(UniConfKey.ofString key, some value)]) }
    | _, _ => p
  | .EVENT_HELLO =>
    if greeted payload then
      { p with version := (scanInt ((wvtclDecode (.ofChar 32) true payload).tail.headD [])).getD 0 }
    else { p with cmdinprogress := false, cmdsuccess := false }
  | .EVENT_NOTICE => { p with deltas := p.deltas ++ [(key, value)] }
  | _ => p

/-- What the switch leaves of the payload. -/
def left (command : Command) (payload : Str) : Str :=
  match command with
  | .REPLY_CHILD | .REPLY_ONEVAL | .PART_VALUE | .EVENT_NOTICE => (getword (getword payload).2).2
  | .EVENT_HELLO => []
  | _ => payload

/-- One call of `conncallback`. -/
def conncallback (g : UniClientConn × Progress) : UniClientConn × Progress :=
  let (c, p) := g
  match c.readcmd with
  | (.command command, _, c) =>
    ({ c with
        payloadbuf := left command c.payloadbuf
        isok := c.isok && (command ≠ .EVENT_HELLO || greeted c.payloadbuf) },
      p.told command c.payloadbuf)
  | (_, _, c) => (c, p)

end Progress

def key (s : CString) : UniConfKey := UniConfKey.ofString s.val

def validKey (s : CString) : ValidKey := ⟨key s, UniConfKey.valid_ofString s.val⟩

inductive Call where
  | get (key : CString)
  | exists_ (key : CString)
  | haschildren (key : CString)
  | set (key : CString) (newvalue : Option CString)
  | setv (pairs : List (CString × Option CString))
  | iterator (key : CString)
  | recursiveiterator (key : CString)
  | refresh
  | commit

inductive Answer where
  | value (value : WvString)
  | bool (b : Bool)
  | list (keys : Option (List (UniConfKey × WvString)))
  | done

/-- What `do_iterator` writes. -/
def subtree (top : CString) (recursive : Bool) : Str :=
  writecmd .REQ_SUBTREE (some (spacecat (escape (some (key top).printable))
    (if recursive then bytes "1" else bytes "0")))

namespace Call

/-- What a call writes to the daemon, where the greeting told this version. -/
def write (version : Int) : Call → Str
  | .get k | .exists_ k => writecmd .REQ_GET (some (escape (some (key k).printable)))
  | .haschildren k => writecmd .REQ_HASCHILDREN (some (escape (some (key k).printable)))
  | .set k newvalue => UniClientGen.set (key k) (newvalue.map Subtype.val)
  | .setv pairs =>
    UniClientGen.setv version (pairs.map fun pair => ⟨validKey pair.1, pair.2.map Subtype.val⟩)
  | .iterator k => subtree k false
  | .recursiveiterator k => subtree k true
  | .refresh => writecmd .REQ_REFRESH none
  | .commit => writecmd .REQ_COMMIT none

/-- The call comes to `do_select`. -/
def waits : Call → Bool
  | .set _ _ | .setv _ => false
  | _ => true

end Call

namespace Progress

def begin (p : Progress) (c : Call) : Progress :=
  { p with
    cmdinprogress := true
    cmdsuccess := false
    result_list :=
      match c with
      | .iterator _ | .recursiveiterator _ => some []
      | _ => p.result_list }

/-- `get` when `do_select` has returned. -/
def got (p : Progress) (k : CString) : WvString :=
  if p.cmdsuccess ∧ p.result_key = some (key k).printable then p.result else none

def finish (p : Progress) : Call → Answer
  | .get k => .value (p.got k)
  | .exists_ k => .bool (p.got k).isSome
  | .haschildren k =>
    .bool (p.cmdsuccess && p.result_key == some (key k).printable && p.result == bytes "TRUE")
  | .iterator _ | .recursiveiterator _ => .list (if p.cmdsuccess then p.result_list else none)
  | .refresh => .bool p.cmdsuccess
  | .set _ _ | .setv _ | .commit => .done

def finished (p : Progress) : Call → Progress
  | .iterator _ | .recursiveiterator _ => { p with result_list := none }
  | _ => p

end Progress

theorem nul_key (k : CString) : (0 : Byte) ∉ (key k).printable :=
  UniConfKey.nul_notMem_printable k.property

def bare (command : Command) : CommandLine := ⟨command, none, by simp, by simp⟩

inductive Request where
  | get (key : CString)
  | haschildren (key : CString)
  | set (key value : CString)
  | remove (key : CString)
  | setv (key : CString) (value : Option CString)
  | setvEnd
  | subtree (key : CString) (recursive : Bool)
  | refresh
  | commit

namespace Request

open UniConfDaemonConn (passes_escape passes_spacecat)

theorem passes_key (k : CString) :
    Passes wvtclNastyNewlines (escape (some (key k).printable)) ∧
      (0 : Byte) ∉ escape (some (key k).printable) := passes_escape (nul_key k)

theorem passes_value (value : Option CString) :
    Passes wvtclNastyNewlines (escape (value.map Subtype.val)) ∧
      (0 : Byte) ∉ escape (value.map Subtype.val) := by
  cases value with
  | none => exact ⟨fun _ _ => rfl, not_mem_nil⟩
  | some value => exact passes_escape value.property

theorem passes_recursive (recursive : Bool) :
    Passes wvtclNastyNewlines (if recursive then bytes "1" else bytes "0") ∧
      (0 : Byte) ∉ (if recursive then bytes "1" else bytes "0") := by
  cases recursive with
  | false | true => exact ⟨passes_plain (by decide), by decide⟩

def line : Request → CommandLine
  | .get k => UniConfDaemonConn.line .REQ_GET _ (passes_key k)
  | .haschildren k => UniConfDaemonConn.line .REQ_HASCHILDREN _ (passes_key k)
  | .set k value =>
    UniConfDaemonConn.line .REQ_SET _ (passes_spacecat (passes_key k) (passes_value (some value)))
  | .remove k => UniConfDaemonConn.line .REQ_REMOVE _ (passes_key k)
  | .setv k value =>
    UniConfDaemonConn.line .REQ_SETV _ (passes_spacecat (passes_key k) (passes_value value))
  | .setvEnd => bare .REQ_SETV
  | .subtree k recursive =>
    UniConfDaemonConn.line .REQ_SUBTREE _
      (passes_spacecat (passes_key k) (passes_recursive recursive))
  | .refresh => bare .REQ_REFRESH
  | .commit => bare .REQ_COMMIT

theorem line_ne_quit (r : Request) : r.line.command ≠ .REQ_QUIT := by
  cases r <;> simp [line, bare, UniConfDaemonConn.line]

end Request

def setRequest (k : CString) : Option CString → Request
  | none => .remove k
  | some value => .set k value

def Call.requests (version : Int) : Call → List Request
  | .get k | .exists_ k => [.get k]
  | .haschildren k => [.haschildren k]
  | .set k newvalue => [setRequest k newvalue]
  | .setv pairs =>
    if 19 ≤ version then (pairs.map fun pair => .setv pair.1 pair.2) ++ [.setvEnd]
    else pairs.map fun pair => setRequest pair.1 pair.2
  | .iterator k => [.subtree k false]
  | .recursiveiterator k => [.subtree k true]
  | .refresh => [.refresh]
  | .commit => [.commit]

def Request.text (r : Request) : Str := r.line.text

theorem set_eq (k : CString) (newvalue : Option CString) :
    UniClientGen.set (key k) (newvalue.map Subtype.val) =
      (setRequest k newvalue).text ++ [newline] := by
  cases newvalue with
  | none => exact (Request.line (.remove k)).writecmd_eq
  | some value => exact (Request.line (.set k value)).writecmd_eq

theorem Call.write_eq (version : Int) (c : Call) :
    c.write version = lines Request.text (c.requests version) := by
  have hone : ∀ r : Request, lines Request.text [r] = r.text ++ [newline] := fun r =>
    append_nil _
  cases c with
  | get k | exists_ k => exact (Request.line (.get k)).writecmd_eq.trans (hone _).symm
  | haschildren k => exact (Request.line (.haschildren k)).writecmd_eq.trans (hone _).symm
  | set k newvalue => exact (set_eq k newvalue).trans (hone _).symm
  | setv pairs =>
    rw [write, requests, UniClientGen.setv, flatMap_map, flatMap_map]
    split
    · have hpair : ∀ pair : CString × Option CString,
          writecmd .REQ_SETV (some (spacecat (escape (some (key pair.1).printable))
            (escape (pair.2.map Subtype.val)))) = (Request.setv pair.1 pair.2).text ++ [newline] :=
        fun pair => (Request.line (.setv pair.1 pair.2)).writecmd_eq
      have hend : writecmd .REQ_SETV none = Request.setvEnd.text ++ [newline] :=
        (Request.line .setvEnd).writecmd_eq
      rw [lines, flatMap_append, flatMap_map, flatMap_singleton, hend]
      exact congrArg (· ++ _) (congrArg (fun f => pairs.flatMap f) (funext hpair))
    · rw [lines, flatMap_map]
      exact congrArg (fun f => pairs.flatMap f) (funext fun pair => set_eq pair.1 pair.2)
  | iterator k => exact (Request.line (.subtree k false)).writecmd_eq.trans (hone _).symm
  | recursiveiterator k => exact (Request.line (.subtree k true)).writecmd_eq.trans (hone _).symm
  | refresh => exact (Request.line .refresh).writecmd_eq.trans (hone _).symm
  | commit => exact (Request.line .commit).writecmd_eq.trans (hone _).symm

section Served

variable {σ : Type} (gen : IUniConfGen σ) (depth : Nat)

/-- The keys below a key, with their values. -/
def listing (top : CString) (recursive : Bool) (s : σ) : List (UniConfKey × WvString) :=
  if recursive then
    (gen.recursiveiterator depth (key top) s).map fun child =>
      (drop (key top).length child.1, child.2)
  else ((gen.iterator (key top) s).getD []).map fun child => ([child.1], child.2)

/-- What a request is to do to the tree. -/
def Request.effect (s : σ) : Request → σ
  | .set k value => UniConfDaemonConn.do_set gen (key k) value.val s
  | .remove k => UniConfDaemonConn.do_remove gen depth (key k) s
  | .setv k (some value) => UniConfDaemonConn.do_set gen (key k) value.val s
  | .setv k none => UniConfDaemonConn.do_remove gen depth (key k) s
  | .refresh => (gen.refresh s).1
  | .commit => gen.commit s
  | _ => s

def Call.answer (s : σ) : Call → Answer
  | .get k => .value (gen.get (key k) s)
  | .exists_ k => .bool (gen.get (key k) s).isSome
  | .haschildren k => .bool (gen.haschildren (key k) s)
  | .iterator k => .list (if gen.exists_ (key k) s then some (listing gen depth k false s) else none)
  | .recursiveiterator k =>
    .list (if gen.exists_ (key k) s then some (listing gen depth k true s) else none)
  | .refresh => .bool (gen.refresh s).2
  | .set _ _ | .setv _ | .commit => .done

/-- What the daemon writes when it has a request. -/
def Request.reply (s : σ) : Request → Str
  | .get k => UniConfDaemonConn.do_get gen (key k) s
  | .haschildren k => UniConfDaemonConn.do_haschildren gen (key k) s
  | .set _ _ | .remove _ => []
  | .setv _ _ | .setvEnd => do_invalid (Command.name .REQ_SETV)
  | .subtree k recursive => UniConfDaemonConn.do_subtree gen depth (key k) recursive s
  | .refresh => if (gen.refresh s).2 then writeok (some []) else writefail (some [])
  | .commit => writeok (some [])

/-- None of the arguments is left open at the end of the line, and the daemon executes it. -/
def Request.Whole : Request → Prop
  | .get k | .haschildren k | .remove k => leftOpen (key k).printable = false
  | .set _ value => leftOpen value.val = false
  | .setv _ _ | .setvEnd => False
  | _ => True

theorem key_printable (k : CString) : UniConfKey.ofString (key k).printable = key k :=
  UniConfKey.ofString_printable_ofString k.val

theorem served_of {command : Command} {msg : Str}
    (hmsg : Passes wvtclNastyNewlines msg ∧ (0 : Byte) ∉ msg) {arg1 arg2 : WvString}
    (h1 : (getarg (32 :: msg)).1 = arg1) (h2 : (getarg (getarg (32 :: msg)).2).1 = arg2)
    {s s' : σ} {reply : Str} (h : perform gen depth (.command command) command.name arg1 arg2 s =
      (s', reply)) (out : Str) :
    served gen depth (s, out) (UniConfDaemonConn.line command msg hmsg) =
      (s', out ++ reply) := by
  have hpayload : (UniConfDaemonConn.line command msg hmsg).payload = 32 :: msg := rfl
  have hcommand : (UniConfDaemonConn.line command msg hmsg).command = command := rfl
  rw [served, hpayload, hcommand, h1, h2, h]

theorem getarg_recursive (recursive : Bool) :
    (getarg (32 :: if recursive then bytes "1" else bytes "0")).1 =
      some (if recursive then bytes "1" else bytes "0") := by
  cases recursive <;> decide +kernel

theorem scanInt_recursive (recursive : Bool) :
    decide ((scanInt (if recursive then bytes "1" else bytes "0")).getD 0 = 1) = recursive := by
  cases recursive <;> decide +kernel

theorem served_line {r : Request} (h : r.Whole) (s : σ) (out : Str) :
    served gen depth (s, out) r.line =
      (r.effect gen depth s, out ++ r.reply gen depth s) := by
  have hlast : ∀ {t : Str}, leftOpen t = false → (getarg (32 :: escape (some t))).1 = some t := by
    intro t ht
    rw [getarg_last, ht, if_neg Bool.false_ne_true]
  cases r with
  | get k =>
    refine served_of gen depth (Request.passes_key k) (hlast h) rfl ?_ out
    exact congrArg (fun key => (s, UniConfDaemonConn.do_get gen key s)) (key_printable k)
  | haschildren k =>
    refine served_of gen depth (Request.passes_key k) (hlast h) rfl ?_ out
    exact congrArg (fun key => (s, UniConfDaemonConn.do_haschildren gen key s)) (key_printable k)
  | set k value =>
    have hfirst := getarg_more (key k).printable (escape (some value.val))
    have hsecond := (congrArg (fun r => (getarg r.2).1) hfirst).trans (hlast h)
    refine served_of gen depth (UniConfDaemonConn.passes_spacecat (Request.passes_key k)
      (Request.passes_value (some value))) (congrArg Prod.fst hfirst) hsecond ?_ out
    exact congrArg (fun key => (UniConfDaemonConn.do_set gen key value.val s, ([] : Str)))
      (key_printable k)
  | remove k =>
    refine served_of gen depth (Request.passes_key k) (hlast h) rfl ?_ out
    exact congrArg (fun key => (UniConfDaemonConn.do_remove gen depth key s, ([] : Str)))
      (key_printable k)
  | setv k value | setvEnd => exact h.elim
  | subtree k recursive =>
    have hfirst := getarg_more (key k).printable (if recursive then bytes "1" else bytes "0")
    have hsecond := (congrArg (fun r => (getarg r.2).1) hfirst).trans (getarg_recursive recursive)
    refine served_of gen depth (UniConfDaemonConn.passes_spacecat (Request.passes_key k)
      (Request.passes_recursive recursive)) (congrArg Prod.fst hfirst) hsecond ?_ out
    exact congrArg₂ (fun key recursive => (s, UniConfDaemonConn.do_subtree gen depth key recursive s))
      (key_printable k) (scanInt_recursive recursive)
  | refresh => rfl
  | commit => rfl

end Served

end UniClientGen

end WvStreams
