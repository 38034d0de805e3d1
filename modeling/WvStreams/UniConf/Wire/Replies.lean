import WvStreams.UniConf.Wire.ClientGen

/-!
# Replies to `UniClientGen`

What the daemon writes for a request ends in one line that completes the call, and from all of it
the call returns what the request came to (`reply_coming`). This is so if the values can be read
back.
-/

namespace WvStreams

open Lib UniClientConn List UniConfDaemonConn

namespace UniClientGen

def heard (p : Progress) (l : CommandLine) : Progress := p.told l.command l.payload

theorem Progress.conncallback_waits : Waits Progress.conncallback := by
  rintro ⟨c, p⟩ h
  rw [Progress.conncallback]
  rw [readcmd_of_none h]

variable {l : CommandLine} {p : Progress}

theorem Progress.conncallback_handles (h : l.command ≠ .EVENT_HELLO) :
    Handles Progress.conncallback CommandLine.text heard l := by
  rintro ⟨c, p⟩ htext
  have hok : ∀ payload, (decide (l.command ≠ .EVENT_HELLO) || greeted payload) = true := by
    intro payload
    rw [decide_eq_true h, Bool.true_or]
  rw [Progress.conncallback]
  rw [CommandLine.readcmd htext]
  dsimp only
  rw [hok, Bool.and_true]
  exact ⟨rfl, _, rfl⟩

theorem splits_space : Splits (.ofChar 32) where
  space := by decide
  kept c hc := by
    obtain rfl : c = 32 := beq_iff_eq.mp hc
    decide
  brace := by decide
  literal := by decide

theorem getword_more (s rest : Str) :
    getword (32 :: spacecat (escape (some s)) rest) = (some s, 32 :: rest) := by
  rw [getword, splits_space.getword_more]

theorem getword_last {s : Str} (h : leftOpen s = false) :
    getword (32 :: escape (some s)) = (some s, []) := by
  rw [getword, splits_space.getword_last, h, if_neg Bool.false_ne_true]

/-- A C string that is not left open as the last word of a line. -/
structure Legible (s : Str) : Prop where
  nul : (0 : Byte) ∉ s
  closed : leftOpen s = false

structure Listed (child : UniConfKey × WvString) : Prop where
  nul : (0 : Byte) ∉ child.1.printable
  key : UniConfKey.ofString child.1.printable = child.1
  value : ∃ value, child.2 = some value ∧ Legible value

section Lines

open UniConfDaemonConn (passes_escape passes_spacecat)

def pairLine (command : Command) {key value : Str} (hkey : (0 : Byte) ∉ key)
    (hvalue : (0 : Byte) ∉ value) : CommandLine :=
  line command _
    (passes_spacecat (passes_escape hkey) (passes_escape hvalue))

variable (command : Command) {key value : Str} (hkey : (0 : Byte) ∉ key) (hvalue : Legible value)

theorem words_pairLine :
    (getword (pairLine command hkey hvalue.nul).payload).1 = some key ∧
      (getword (getword (pairLine command hkey hvalue.nul).payload).2).1 = some value := by
  have hpayload : (pairLine command hkey hvalue.nul).payload =
      32 :: spacecat (escape (some key)) (escape (some value)) := rfl
  rw [hpayload, getword_more, getword_last hvalue.closed]
  exact ⟨rfl, rfl⟩

theorem heard_oneval (p : Progress) :
    heard p (pairLine .REPLY_ONEVAL hkey hvalue.nul) =
      { p with
        result_key := some key
        result := some value
        cmdsuccess := true
        cmdinprogress := false } := by
  obtain ⟨h1, h2⟩ := words_pairLine .REPLY_ONEVAL hkey hvalue
  have hheard : heard p (pairLine .REPLY_ONEVAL hkey hvalue.nul) = p.told .REPLY_ONEVAL _ := rfl
  rw [hheard, Progress.told, h1, h2]
  rfl

theorem heard_value (p : Progress) :
    heard p (pairLine .PART_VALUE hkey hvalue.nul) =
      { p with
        result_list := p.result_list.map (· ++ [(UniConfKey.ofString key, some value)]) } := by
  obtain ⟨h1, h2⟩ := words_pairLine .PART_VALUE hkey hvalue
  have hheard : heard p (pairLine .PART_VALUE hkey hvalue.nul) = p.told .PART_VALUE _ := rfl
  rw [hheard, Progress.told, h1, h2]

end Lines

def Quiet (l : CommandLine) : Prop := l.command = .EVENT_NOTICE

/-- The lines complete the call, which then returns the answer. -/
def Coming (c : Call) (answer : Answer) (p : Progress) : List CommandLine → Prop
  | [] => False
  | l :: ls =>
    if (heard p l).cmdinprogress then Coming c answer (heard p l) ls
    else (heard p l).finish c = answer ∧ ∀ l ∈ ls, Quiet l

/-- The call has begun and no reply has come. -/
structure Begun (c : Call) (p : Progress) : Prop where
  inprogress : p.cmdinprogress = true
  result_list : ∀ k, c = .iterator k ∨ c = .recursiveiterator k → p.result_list = some []

theorem begun_begin (p : Progress) (c : Call) : Begun c (p.begin c) where
  inprogress := rfl
  result_list := by
    rintro k (rfl | rfl)
    · rfl
    · rfl

theorem heard_quiet (h : Quiet l) (p : Progress) : ∃ deltas, heard p l = { p with deltas } := by
  rw [heard, h]
  exact ⟨_, rfl⟩

theorem Begun.quiet {c : Call} (hp : Begun c p) (h : Quiet l) : Begun c (heard p l) := by
  obtain ⟨deltas, hheard⟩ := heard_quiet h p
  rw [hheard]
  exact ⟨hp.inprogress, hp.result_list⟩

theorem Coming.append_quiet {c : Call} {answer : Answer} {ls quiet : List CommandLine}
    (h : Coming c answer p ls) (hquiet : ∀ l ∈ quiet, Quiet l) :
    Coming c answer p (ls ++ quiet) := by
  induction ls generalizing p with
  | nil => exact h.elim
  | cons l ls ih =>
    rw [Coming] at h
    rw [cons_append, Coming]
    split
    · rename_i hprogress
      rw [if_pos hprogress] at h
      exact ih h
    · rename_i hdone
      rw [if_neg hdone] at h
      exact ⟨h.1, forall_mem_append.mpr ⟨h.2, hquiet⟩⟩

theorem coming_quiet_append {c : Call} {answer : Answer} {quiet ls : List CommandLine}
    (hquiet : ∀ l ∈ quiet, Quiet l) (h : ∀ p, Begun c p → Coming c answer p ls) (hp : Begun c p) :
    Coming c answer p (quiet ++ ls) := by
  induction quiet generalizing p with
  | nil => exact h p hp
  | cons l quiet ih =>
    obtain ⟨hl, hquiet⟩ := forall_mem_cons.mp hquiet
    have hnext := hp.quiet hl
    rw [cons_append, Coming, if_pos hnext.inprogress]
    exact ih hquiet hnext

theorem coming_of_done {c : Call} {answer : Answer} (hdone : (heard p l).cmdinprogress = false)
    (hanswer : (heard p l).finish c = answer) : Coming c answer p [l] := by
  rw [Coming, if_neg (by rw [hdone]; exact Bool.false_ne_true)]
  exact ⟨hanswer, by simp⟩

section Replies

variable {σ : Type} {gen : IUniConfGen σ} {depth : Nat} {s : σ}

/-- What is listed in the reply to a request can be read back. -/
def Request.Legible (gen : IUniConfGen σ) (depth : Nat) (s : σ) : Request → Prop
  | .get k => ∀ value ∈ gen.get (key k) s, UniClientGen.Legible value
  | .subtree k recursive => gen.exists_ (key k) s = true →
      ∀ child ∈ listing gen depth k recursive s, Listed child
  | _ => True

/-- The lines of a reply, which are no greetings, and what they do to the call. -/
structure Completes (reply : Str) (c : Call) (answer : Answer) : Prop where
  lines : ∃ ls : List CommandLine, reply = UniClientConn.lines CommandLine.text ls ∧
    (∀ l ∈ ls, l.command ≠ .EVENT_HELLO) ∧ ∀ p, Begun c p → Coming c answer p ls

variable {c : Call}

theorem completes_of_line {answer : Answer} {reply : Str} {l : CommandLine}
    (hreply : reply = l.text ++ [newline]) (hhello : l.command ≠ .EVENT_HELLO)
    (h : ∀ p, Begun c p → (heard p l).cmdinprogress = false ∧ (heard p l).finish c = answer) :
    Completes reply c answer := by
  refine ⟨[l], hreply.trans (append_nil _).symm, forall_mem_singleton.mpr hhello, ?_⟩
  intro p hp
  exact coming_of_done (h p hp).1 (h p hp).2

/-- A reply with the empty payload, which is not null. -/
def blank (command : Command) : CommandLine :=
  line command [] ⟨fun _ _ => rfl, not_mem_nil⟩

theorem writeok_eq : writeok (some []) = (blank .REPLY_OK).text ++ [newline] :=
  (blank .REPLY_OK).writecmd_eq

theorem writefail_eq : writefail (some []) = (blank .REPLY_FAIL).text ++ [newline] :=
  (blank .REPLY_FAIL).writecmd_eq

theorem heard_fail (p : Progress) : heard p (blank .REPLY_FAIL) =
    { p with result_key := none, cmdsuccess := false, cmdinprogress := false } := rfl

theorem heard_ok (p : Progress) : heard p (blank .REPLY_OK) =
    { p with cmdsuccess := true, cmdinprogress := false } := rfl

theorem get_completes {k : CString} (h : ∀ value ∈ gen.get (key k) s, Legible value)
    {answer : Answer} (hc : ∀ p : Progress, p.got k = gen.get (key k) s → p.finish c = answer) :
    Completes (do_get gen (key k) s) c answer := by
  rw [do_get]
  cases hget : gen.get (key k) s with
  | none =>
    refine completes_of_line writefail_eq (by decide) fun p _ => ?_
    rw [heard_fail]
    refine ⟨rfl, hc _ ?_⟩
    rw [hget]
    rfl
  | some value =>
    have hvalue := h value hget
    have hline : writeonevalue (key k) (some value) =
        (pairLine .REPLY_ONEVAL (nul_key k) hvalue.nul).text ++ [newline] :=
      (pairLine .REPLY_ONEVAL (nul_key k) hvalue.nul).writecmd_eq
    refine completes_of_line hline nofun fun p _ => ?_
    rw [heard_oneval (nul_key k) hvalue]
    refine ⟨rfl, hc _ ?_⟩
    rw [hget]
    exact if_pos ⟨rfl, rfl⟩

theorem heard_child (k : CString) {word : Str} (hword : getword (32 :: word) = (some word, []))
    (hpasses : Passes wvtclNastyNewlines word ∧ (0 : Byte) ∉ word) (p : Progress) :
    heard p (line .REPLY_CHILD _ (passes_spacecat (Request.passes_key k) hpasses)) =
      { p with
        result_key := some (key k).printable
        result := some word
        cmdsuccess := true
        cmdinprogress := false } := by
  have hheard : heard p (line .REPLY_CHILD _
      (passes_spacecat (Request.passes_key k) hpasses)) =
    p.told .REPLY_CHILD (32 :: spacecat (escape (some (key k).printable)) word) := rfl
  rw [hheard, Progress.told, getword_more, hword]
  rfl

theorem haschild_word (haschild : Bool) :
    let word := if haschild then bytes "TRUE" else bytes "FALSE"
    getword (32 :: word) = (some word, []) ∧ Passes wvtclNastyNewlines word ∧ (0 : Byte) ∉ word ∧
      (some word == some (bytes "TRUE")) = haschild := by
  cases haschild with
  | false | true => exact ⟨by decide +kernel, passes_plain (by decide), by decide, by decide⟩

theorem haschildren_completes (k : CString) :
    Completes (do_haschildren gen (key k) s) (.haschildren k)
      (.bool (gen.haschildren (key k) s)) := by
  obtain ⟨hword, hpasses, hnul, hvalue⟩ := haschild_word (gen.haschildren (key k) s)
  have hline := (line .REPLY_CHILD _
    (passes_spacecat (Request.passes_key k) ⟨hpasses, hnul⟩)).writecmd_eq
  refine completes_of_line hline nofun fun p _ => ?_
  rw [heard_child k hword ⟨hpasses, hnul⟩]
  refine ⟨rfl, congrArg Answer.bool ?_⟩
  rw [beq_self_eq_true, Bool.true_and, Bool.true_and]
  exact hvalue

theorem coming_listing {k : CString} (hc : c = .iterator k ∨ c = .recursiveiterator k)
    {children : List (UniConfKey × WvString)} (hchildren : ∀ child ∈ children, Listed child) :
    ∃ ls : List CommandLine,
      (children.map fun child => writevalue child.1 child.2).flatten ++ writeok (some []) =
        lines CommandLine.text ls ∧ (∀ l ∈ ls, l.command ≠ .EVENT_HELLO) ∧
      ∀ p : Progress, p.cmdinprogress = true → ∀ found, p.result_list = some found →
        Coming c (.list (some (found ++ children))) p ls := by
  induction children with
  | nil =>
    refine ⟨[blank .REPLY_OK], writeok_eq.trans (append_nil _).symm,
      forall_mem_singleton.mpr (by decide), ?_⟩
    intro p _ found hfound
    apply coming_of_done
    · rw [heard_ok]
    · rw [heard_ok, append_nil]
      rcases hc with rfl | rfl
      · exact congrArg Answer.list ((if_pos rfl).trans hfound)
      · exact congrArg Answer.list ((if_pos rfl).trans hfound)
  | cons child children ih =>
    obtain ⟨hchild, hchildren⟩ := forall_mem_cons.mp hchildren
    obtain ⟨ls, hlines, hhello, hcoming⟩ := ih hchildren
    obtain ⟨top, value⟩ := child
    obtain ⟨hnul, hkey, value, rfl, hvalue⟩ := hchild
    have hline : writevalue top (some value) =
        (pairLine .PART_VALUE hnul hvalue.nul).text ++ [newline] :=
      (pairLine .PART_VALUE hnul hvalue.nul).writecmd_eq
    refine ⟨pairLine .PART_VALUE hnul hvalue.nul :: ls, ?_,
      forall_mem_cons.mpr ⟨nofun, hhello⟩, ?_⟩
    · rw [map_cons, flatten_cons, append_assoc, hlines, hline]
      rfl
    · intro p hp found hfound
      rw [Coming, heard_value hnul hvalue, if_pos hp, hkey]
      have hnext := hcoming { p with
        result_list := p.result_list.map (· ++ [(top, some value)]) } hp
        (found ++ [(top, some value)]) (by rw [hfound]; rfl)
      rwa [append_assoc, singleton_append] at hnext

theorem subtree_completes {k : CString} {recursive : Bool}
    (hc : c = .iterator k ∨ c = .recursiveiterator k)
    (h : gen.exists_ (key k) s = true → ∀ child ∈ listing gen depth k recursive s, Listed child) :
    Completes (do_subtree gen depth (key k) recursive s) c
      (.list (if gen.exists_ (key k) s then some (listing gen depth k recursive s) else none)) := by
  rw [do_subtree]
  by_cases hexists : gen.exists_ (key k) s = true
  · rw [if_pos hexists, if_pos hexists]
    obtain ⟨ls, hlines, hhello, hcoming⟩ := coming_listing hc (h hexists)
    have hvalues : (listing gen depth k recursive s).map (fun child =>
        writevalue child.1 child.2) = if recursive then
          (gen.recursiveiterator depth (key k) s).map fun child =>
            writevalue (drop (key k).length child.1) child.2
        else ((gen.iterator (key k) s).getD []).map fun child => writevalue [child.1] child.2 := by
      cases recursive with
      | false | true => exact map_map
    rw [← hvalues]
    exact ⟨ls, hlines, hhello, fun p hp => hcoming p hp.inprogress [] (hp.result_list k hc)⟩
  · rw [if_neg hexists, if_neg hexists]
    refine completes_of_line writefail_eq (by decide) fun p _ => ?_
    rw [heard_fail]
    refine ⟨rfl, ?_⟩
    rcases hc with rfl | rfl
    · rfl
    · rfl

theorem reply_completes (hwaits : c.waits = true) {version : Int} {r : Request}
    (hr : c.requests version = [r]) (h : r.Legible gen depth s) :
    Completes (r.reply gen depth s) c (c.answer gen depth s) := by
  cases c with
  | get k =>
    obtain rfl := singleton_inj.mp hr
    exact get_completes h fun p hp => congrArg Answer.value hp
  | exists_ k =>
    obtain rfl := singleton_inj.mp hr
    exact get_completes h fun p hp => congrArg (fun value : WvString => Answer.bool value.isSome) hp
  | haschildren k =>
    obtain rfl := singleton_inj.mp hr
    exact haschildren_completes k
  | set k newvalue | setv pairs => cases hwaits
  | iterator k =>
    obtain rfl := singleton_inj.mp hr
    exact subtree_completes (Or.inl rfl) h
  | recursiveiterator k =>
    obtain rfl := singleton_inj.mp hr
    exact subtree_completes (Or.inr rfl) h
  | refresh =>
    obtain rfl := singleton_inj.mp hr
    rw [Request.reply, Call.answer]
    cases (gen.refresh s).2 with
    | true => exact completes_of_line writeok_eq (by decide) fun p _ => ⟨rfl, rfl⟩
    | false => exact completes_of_line writefail_eq (by decide) fun p _ => ⟨rfl, rfl⟩
  | commit =>
    obtain rfl := singleton_inj.mp hr
    exact completes_of_line writeok_eq (by decide) fun p _ => ⟨rfl, rfl⟩

end Replies

end UniClientGen

end WvStreams
