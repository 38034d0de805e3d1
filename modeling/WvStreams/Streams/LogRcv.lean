import WvStreams.Strings.VerString
import Mathlib.Data.List.Basic

/-!
# `WvLogRcv`

What is logged comes as pieces of text, from several sources and at several levels. `WvLogRcv`
makes lines of it, each with the prefix of its source and level, and goes on with a line as long as
they stay the same. Nothing is lost, and each byte is in a line of its own source and level
(`log_lines`).
-/

namespace WvStreams

open List Option

open VerString (sprintf_0x)

inductive LogLevel where
  | Critical | Error | Warning | Notice | Info | Debug1 | Debug2 | Debug3 | Debug4 | Debug5
  deriving DecidableEq

/-- Where a message comes from, and its level. -/
abbrev Origin := WvString × LogLevel

/-- A receiver without custom levels, with what it has passed to `_mid_line`. For `NUM_LOGLEVELS`
there is no level. -/
structure WvLogRcv where
  last_source : WvString := none
  last_level : Option LogLevel := none
  max_level : Option LogLevel := none
  last_time : Int := 0
  at_newline : Bool := true
  prefix_ : Str := []
  force_new_line : Bool := false
  output : List Str := []

namespace WvLogRcv

abbrev newline : Byte := 10

abbrev tab : Byte := 9

/-! ## The functions -/

def loglevels : LogLevel → Str
  | .Critical => bytes "Crit"
  | .Error => bytes "Err"
  | .Warning => bytes "Warn"
  | .Notice => bytes "Notice"
  | .Info => bytes "Info"
  | .Debug1 => bytes "*1"
  | .Debug2 => bytes "*2"
  | .Debug3 => bytes "*3"
  | .Debug4 => bytes "*4"
  | .Debug5 => bytes "*5"

/-- `"%s<%s>: "` with a source and the name of a level. -/
def title (o : Origin) : Str :=
  o.1.getD (bytes "(nil)") ++ bytes "<" ++ loglevels o.2 ++ bytes ">: "

def _make_prefix (rcv : WvLogRcv) : WvLogRcv :=
  match rcv.last_level with
  | none => rcv
  | some level => { rcv with prefix_ := title (rcv.last_source, level) }

def _mid_line (rcv : WvLogRcv) (str : Str) : WvLogRcv := { rcv with output := rcv.output ++ [str] }

def mid_line (rcv : WvLogRcv) (str : Str) : WvLogRcv :=
  let rcv := rcv._mid_line str
  if str.getLast? = some newline then { rcv with at_newline := true } else rcv

def begin_line (rcv : WvLogRcv) : WvLogRcv :=
  if rcv.at_newline then { rcv.mid_line rcv.prefix_ with at_newline := false } else rcv

def end_line (rcv : WvLogRcv) : WvLogRcv :=
  if rcv.at_newline then rcv else { rcv._mid_line [newline] with at_newline := true }

/-- `isprint` in the C locale, and everything above it. -/
def my_isprint (c : Byte) : Bool := 32 ≤ c && c ≤ 126 || 128 ≤ c

/-- `snprintf` with `"[%02x]"`. -/
def hex (c : Byte) : Str := (bytes "[" ++ sprintf_0x 2 c.toNat ++ bytes "]").take 4

def logLoop (rcv : WvLogRcv) : Str → WvLogRcv
  | [] => rcv
  | c :: buf =>
    if c = newline ∨ c = 13 then logLoop rcv.end_line buf
    else if c = tab then logLoop (rcv.begin_line.mid_line (bytes " ")) buf
    else if !my_isprint c then logLoop (rcv.begin_line.mid_line (hex c)) buf
    else
      -- at the end, a newline and an unprintable byte it does the same
      let run := buf.takeWhile fun c => c ≠ newline && my_isprint c
      logLoop (rcv.begin_line.mid_line (c :: run)) (buf.drop run.length)
termination_by buf => buf.length
decreasing_by
  all_goals simp only [List.length_cons, List.length_drop]
  all_goals omega

structure Call where
  source : WvString
  loglevel : LogLevel
  buf : Str

def Call.origin (c : Call) : Origin := (c.source, c.loglevel)

def heard (threshold : Option LogLevel) (c : Call) : Bool :=
  threshold.all fun threshold => c.loglevel.ctorIdx ≤ threshold.ctorIdx

def log (now : Int) (rcv : WvLogRcv) (c : Call) : WvLogRcv :=
  if !heard rcv.max_level c then rcv
  else
    let rcv :=
      if c.source ≠ rcv.last_source ∨ some c.loglevel ≠ rcv.last_level ∨ rcv.force_new_line then
        let rcv := rcv.end_line
        let rcv := { rcv with
          last_source := c.source, last_level := some c.loglevel, last_time := now }
        _make_prefix rcv
      else if rcv.last_time = 0 ∨ now ≠ rcv.last_time then
        let rcv := { rcv with last_time := now }
        if rcv.at_newline then _make_prefix rcv else rcv
      else rcv
    logLoop rcv c.buf

/-! ## Lines -/

structure Line where
  origin : Origin
  text : Str

/-- The prefix, the text and the end of a line. -/
def Line.print (ln : Line) : Str := title ln.origin ++ ln.text ++ [newline]

def tag (o : Origin) (s : Str) : List (Option (Origin × Byte)) := s.map fun b => some (o, b)

def formatted (c : Byte) : Str :=
  if c = newline ∨ c = 13 then [] else if c = tab then bytes " " else if my_isprint c then [c] else hex c

/-- The bytes that are written for a text, with none for the end of a line. -/
def textTokens (o : Origin) (buf : Str) : List (Option (Origin × Byte)) :=
  buf.flatMap fun b => if b = newline ∨ b = 13 then [none] else tag o (formatted b)

/-- The bytes that are written, with none where a line ends: at a newline, and before a call with
another source or level. -/
def tokens (o : Option Origin) : List Call → List (Option (Origin × Byte))
  | [] => []
  | c :: calls =>
    (if o = some c.origin then [] else [none]) ++ textTokens c.origin c.buf ++
      tokens (some c.origin) calls

/-- The parts between the ends of lines that are not empty. -/
def groups {α : Type} (ts : List (Option α)) : List (List (Option α)) :=
  (ts.splitOnP isNone).filter fun g => !g.isEmpty

section Groups

variable {α : Type}

theorem groups_append_none (xs ys : List (Option α)) :
    groups (xs ++ none :: ys) = groups xs ++ groups ys := by
  rw [groups, splitOnP_append_cons xs ys rfl, filter_append]
  rfl

theorem groups_tag (o : Origin) (s : Str) :
    groups (tag o s) = if s = [] then [] else [tag o s] := by
  have hsome : ∀ t ∈ tag o s, t.isNone = false := by
    intro t ht
    obtain ⟨b, -, rfl⟩ := mem_map.mp ht
    rfl
  rw [groups, splitOnP_eq_singleton hsome]
  cases s with
  | nil => rfl
  | cons b s => rfl

theorem flatten_groups (ts : List (Option α)) : (groups ts).flatten = ts.filter isSome := by
  rw [groups, flatten_filter_not_isEmpty]
  induction ts with
  | nil => rfl
  | cons t ts ih =>
    rw [splitOnP_cons_eq_if_modifyHead]
    cases t with
    | none => exact ih
    | some a =>
      obtain ⟨g, gs, hsplit⟩ :=
        exists_cons_of_ne_nil (splitOnP_ne_nil isNone ts)
      rw [hsplit] at ih ⊢
      exact congrArg (some a :: ·) ih

end Groups

/-! ## What a receiver shows -/

/-- The lines that a receiver has written, and the text of one that is not at its end. -/
structure Shows (rcv : WvLogRcv) (lines : List Line) (cur : Str) : Prop where
  output_eq : rcv.output.flatten =
    lines.flatMap Line.print ++ if cur = [] then [] else rcv.prefix_ ++ cur
  at_newline_eq : rcv.at_newline = cur.isEmpty
  printable : ∀ ln ∈ lines, ln.text ≠ [] ∧ ∀ b ∈ ln.text, my_isprint b = true
  cur_printable : ∀ b ∈ cur, my_isprint b = true

/-- The receiver has its threshold, and what it keeps of the call before. -/
structure Keeps (rcv : WvLogRcv) (threshold : Option LogLevel) (o : Option Origin) : Prop where
  max_level_eq : rcv.max_level = threshold
  force_eq : rcv.force_new_line = false
  level_eq : rcv.last_level = o.map Prod.snd
  origin_eq : ∀ p, o = some p → rcv.last_source = p.1 ∧ rcv.prefix_ = title p

variable {rcv : WvLogRcv} {threshold : Option LogLevel} {o : Origin} {lines : List Line}
  {cur : Str}

def closed (o : Origin) (lines : List Line) (cur : Str) : List Line :=
  if cur = [] then lines else lines ++ [⟨o, cur⟩]

theorem end_line_keeps {o : Option Origin} (h : Keeps rcv threshold o) :
    Keeps rcv.end_line threshold o := by
  rw [end_line]
  cases rcv.at_newline with
  | true => exact h
  | false => exact ⟨h.max_level_eq, h.force_eq, h.level_eq, h.origin_eq⟩

theorem end_line_shows (htitle : cur ≠ [] → rcv.prefix_ = title o) (h : Shows rcv lines cur) :
    Shows rcv.end_line (closed o lines cur) [] := by
  have hnewline := h.at_newline_eq
  rw [end_line]
  cases cur with
  | nil =>
    have hstart : rcv.at_newline = true := hnewline
    rw [if_pos hstart]
    exact ⟨h.output_eq, hnewline, h.printable, h.cur_printable⟩
  | cons b cur =>
    have hne : ¬ rcv.at_newline = true := by
      rw [hnewline]
      exact Bool.false_ne_true
    rw [if_neg hne, closed, if_neg (cons_ne_nil b cur)]
    exact
      { output_eq := by
          have houtput := h.output_eq
          rw [if_neg (cons_ne_nil b cur), htitle (cons_ne_nil b cur)] at houtput
          show (rcv.output ++ [[newline]]).flatten = _
          rw [flatten_append, houtput, flatMap_append, if_pos rfl, append_nil,
            append_assoc, flatMap_singleton]
          rfl
        at_newline_eq := rfl
        printable := fun ln hln => (mem_append.mp hln).elim (h.printable ln)
          (fun hln => mem_singleton.mp hln ▸ ⟨cons_ne_nil b cur, h.cur_printable⟩)
        cur_printable := forall_mem_nil _ }

theorem mid_line_eq (rcv : WvLogRcv) {t : Str} (ht : ∀ b ∈ t, my_isprint b = true) :
    rcv.mid_line t = rcv._mid_line t := by
  refine if_neg (fun hlast => ?_)
  have hprint := ht newline (mem_of_getLast? hlast)
  exact absurd hprint (by decide)

theorem mid_line_title (rcv : WvLogRcv) (o : Origin) :
    rcv.mid_line (title o) = rcv._mid_line (title o) := by
  have hlast : (title o).getLast? = some 32 := by
    rw [title]
    exact getLast?_append_of_ne_nil _ (by decide)
  refine if_neg (fun h => ?_)
  rw [hlast] at h
  exact absurd h (by decide)

theorem mid_line_keeps {o : Option Origin} (h : Keeps rcv threshold o) (t : Str) :
    Keeps (rcv.mid_line t) threshold o := by
  obtain ⟨hlevel, hforce, hlast, horigin⟩ := h
  rw [mid_line]
  split
  · exact ⟨hlevel, hforce, hlast, horigin⟩
  · exact ⟨hlevel, hforce, hlast, horigin⟩

theorem begin_line_keeps {o : Option Origin} (h : Keeps rcv threshold o) :
    Keeps rcv.begin_line threshold o := by
  rw [begin_line]
  split
  · obtain ⟨hlevel, hforce, hlast, horigin⟩ := mid_line_keeps h rcv.prefix_
    exact ⟨hlevel, hforce, hlast, horigin⟩
  · exact h

theorem text_shows (hkeeps : Keeps rcv threshold (some o)) (h : Shows rcv lines cur) {t : Str}
    (hne : t ≠ []) (ht : ∀ b ∈ t, my_isprint b = true) :
    Shows (rcv.begin_line.mid_line t) lines (cur ++ t) := by
  have hlead := (hkeeps.origin_eq o rfl).2
  have houtput := h.output_eq
  have hnewline := h.at_newline_eq
  have hcur : ∀ b ∈ cur ++ t, my_isprint b = true := fun b hb =>
    (mem_append.mp hb).elim (h.cur_printable b) (ht b)
  have hboth : cur ++ t ≠ [] := fun hnil => hne (append_eq_nil_iff.mp hnil).2
  have hempty : (cur ++ t).isEmpty = false := by
    rw [isEmpty_eq_false_iff]
    exact hboth
  rw [mid_line_eq _ ht, begin_line]
  cases cur with
  | nil =>
    have hstart : rcv.at_newline = true := hnewline
    rw [if_pos hstart, hlead, mid_line_title]
    exact
      { output_eq := by
          show (rcv.output ++ [title o] ++ [t]).flatten = _
          rw [flatten_append, flatten_append, houtput, if_pos rfl, if_neg hboth,
            append_nil, append_assoc]
          show _ = _ ++ (rcv.prefix_ ++ t)
          rw [hlead]
          simp
        at_newline_eq := hempty.symm
        printable := h.printable
        cur_printable := hcur }
  | cons b cur =>
    have hmiddle : ¬ rcv.at_newline = true := by
      rw [hnewline]
      exact Bool.false_ne_true
    rw [if_neg hmiddle]
    exact
      { output_eq := by
          show (rcv.output ++ [t]).flatten = _
          rw [flatten_append, houtput, if_neg (cons_ne_nil b cur), if_neg hboth,
            append_assoc, append_assoc]
          simp [_mid_line]
        at_newline_eq := hnewline
        printable := h.printable
        cur_printable := hcur }

theorem hex_printable (c : Byte) : ∀ b ∈ hex c, my_isprint b = true := by
  have hdigit : ∀ d < 16, my_isprint (VerString.lookup.getD d 0) = true := by decide
  intro b hb
  obtain ⟨ds, htext, hds, -⟩ := VerString.sprintf_0x_digits c.toNat (k := 2) (by omega) c.toNat_lt
  rw [hex, htext] at hb
  rcases mem_append.mp (mem_of_mem_take hb) with hb | hb
  · rcases mem_append.mp hb with hb | hb
    · obtain rfl : b = 91 := mem_singleton.mp hb
      rfl
    · obtain ⟨d, hd, rfl⟩ := mem_map.mp hb
      exact hdigit d (hds d hd)
  · obtain rfl : b = 93 := mem_singleton.mp hb
    rfl

theorem formatted_printable (c : Byte) : ∀ b ∈ formatted c, my_isprint b = true := by
  intro b hb
  rw [formatted] at hb
  split at hb
  · contradiction
  · split at hb
    · obtain rfl : b = 32 := mem_singleton.mp hb
      rfl
    · split at hb
      · next hc => exact mem_singleton.mp hb ▸ hc
      · exact hex_printable c b hb

theorem formatted_of_isprint {c : Byte} (hc : my_isprint c = true) : formatted c = [c] := by
  have hend : ¬ (c = newline ∨ c = 13) := by
    rintro (rfl | rfl)
    · exact absurd hc (by decide)
    · exact absurd hc (by decide)
  have htab : c ≠ tab := by
    rintro rfl
    exact absurd hc (by decide)
  rw [formatted, if_neg hend, if_neg htab, if_pos hc]

theorem textTokens_append (o : Origin) (s t : Str) :
    textTokens o (s ++ t) = textTokens o s ++ textTokens o t :=
  flatMap_append

theorem tag_append (o : Origin) (s t : Str) : tag o (s ++ t) = tag o s ++ tag o t :=
  map_append

theorem textTokens_cons {c : Byte} (hc : ¬ (c = newline ∨ c = 13)) (o : Origin) (buf : Str) :
    textTokens o (c :: buf) = tag o (formatted c) ++ textTokens o buf := by
  rw [textTokens, flatMap_cons, if_neg hc]
  rfl

theorem textTokens_of_isprint (o : Origin) {s : Str} (hs : ∀ b ∈ s, my_isprint b = true) :
    textTokens o s = tag o s := by
  induction s with
  | nil => rfl
  | cons c s ih =>
    obtain ⟨hc, hs⟩ := forall_mem_cons.mp hs
    have hend : ¬ (c = newline ∨ c = 13) := by
      rintro (rfl | rfl)
      · exact absurd hc (by decide)
      · exact absurd hc (by decide)
    rw [textTokens_cons hend, formatted_of_isprint hc, ih hs]
    rfl

/-- The lines so far, and those that are to come. -/
def shown (o : Origin) (lines : List Line) (cur : Str) (rest : List (Option (Origin × Byte))) :
    List (List (Option (Origin × Byte))) :=
  (lines.map fun ln => tag ln.origin ln.text) ++ groups (tag o cur ++ rest)

theorem shown_none (o : Origin) (lines : List Line) (cur : Str)
    (rest : List (Option (Origin × Byte))) :
    shown o lines cur (none :: rest) = shown o (closed o lines cur) [] rest := by
  rw [shown, groups_append_none, groups_tag, shown, closed]
  by_cases hcur : cur = []
  · rw [if_pos hcur, if_pos hcur]
    rfl
  · rw [if_neg hcur, if_neg hcur, map_append, append_assoc]
    rfl

theorem shown_tag (o : Origin) (lines : List Line) (cur t : Str)
    (rest : List (Option (Origin × Byte))) :
    shown o lines cur (tag o t ++ rest) = shown o lines (cur ++ t) rest := by
  rw [shown, shown, tag_append, append_assoc]

theorem logLoop_spec (buf : Str) (hkeeps : Keeps rcv threshold (some o))
    (h : Shows rcv lines cur) :
    Keeps (logLoop rcv buf) threshold (some o) ∧ ∃ lines' cur', Shows (logLoop rcv buf) lines' cur' ∧
      ∀ rest, shown o lines cur (textTokens o buf ++ rest) = shown o lines' cur' rest := by
  induction rcv, buf using logLoop.induct generalizing lines cur with
  | case1 rcv =>
    rw [logLoop]
    exact ⟨hkeeps, lines, cur, h, fun _ => rfl⟩
  | case2 rcv c buf hc ih =>
    obtain ⟨hkeeps', lines', cur', hshows, hshown⟩ :=
      ih (end_line_keeps hkeeps) (end_line_shows (fun _ => (hkeeps.origin_eq o rfl).2) h)
    rw [logLoop, if_pos hc]
    refine ⟨hkeeps', lines', cur', hshows, fun rest => ?_⟩
    rw [← hshown, ← shown_none, textTokens, flatMap_cons, if_pos hc]
    rfl
  | case3 rcv buf hc ih =>
    have hspace : formatted tab = bytes " " := rfl
    obtain ⟨hkeeps', lines', cur', hshows, hshown⟩ :=
      ih (mid_line_keeps (begin_line_keeps hkeeps) _)
        (text_shows hkeeps h (by decide) (hspace ▸ formatted_printable tab))
    rw [logLoop, if_neg hc, if_pos rfl]
    refine ⟨hkeeps', lines', cur', hshows, fun rest => ?_⟩
    rw [textTokens_cons hc, hspace, append_assoc, shown_tag, hshown]
  | case4 rcv c buf hc htab hprint ih =>
    have hhex : formatted c = hex c := by
      rw [formatted, if_neg hc, if_neg htab, if_neg (by simpa using hprint)]
    have hne : hex c ≠ [] := cons_ne_nil _ _
    obtain ⟨hkeeps', lines', cur', hshows, hshown⟩ :=
      ih (mid_line_keeps (begin_line_keeps hkeeps) _) (text_shows hkeeps h hne (hex_printable c))
    rw [logLoop, if_neg hc, if_neg htab, if_pos hprint]
    refine ⟨hkeeps', lines', cur', hshows, fun rest => ?_⟩
    rw [textTokens_cons hc, hhex, append_assoc, shown_tag, hshown]
  | case5 rcv c buf hc htab hprint run =>
    rename_i ih
    have hrun : ∀ b ∈ buf.takeWhile (fun c => c ≠ newline && my_isprint c), my_isprint b = true :=
      fun b hb =>
        have hboth := mem_takeWhile_imp hb
        (Bool.and_eq_true_iff.mp hboth).2
    have hprintable : ∀ b ∈ c :: buf.takeWhile (fun c => c ≠ newline && my_isprint c),
        my_isprint b = true := forall_mem_cons.mpr ⟨by simpa using hprint, hrun⟩
    have hsplit : c :: buf = (c :: buf.takeWhile fun c => c ≠ newline && my_isprint c) ++
        buf.drop (buf.takeWhile fun c => c ≠ newline && my_isprint c).length :=
      congrArg (c :: ·) (prefix_iff_eq_append.mp (List.takeWhile_prefix _)).symm
    obtain ⟨hkeeps', lines', cur', hshows, hshown⟩ :=
      ih (mid_line_keeps (begin_line_keeps hkeeps) _)
        (text_shows hkeeps h (cons_ne_nil _ _) hprintable)
    rw [logLoop, if_neg hc, if_neg htab, if_neg hprint]
    refine ⟨hkeeps', lines', cur', hshows, fun rest => ?_⟩
    rw [hsplit, textTokens_append, textTokens_of_isprint o hprintable, append_assoc, shown_tag,
      hshown]

/-! ## Runs -/

def logAll (now : Int) (rcv : WvLogRcv) (calls : List Call) : WvLogRcv := calls.foldl (log now) rcv

/-- Before the first call no line has begun. -/
def Begun (o : Option Origin) (cur : Str) : Prop := o = none → cur = []

theorem make_prefix_eq (hkeeps : Keeps rcv threshold (some o)) : _make_prefix rcv = rcv := by
  obtain ⟨hsource, hlead⟩ := hkeeps.origin_eq o rfl
  have hlevel : rcv.last_level = some o.2 := hkeeps.level_eq
  have htitle : title (rcv.last_source, o.2) = rcv.prefix_ := by
    rw [hsource]
    exact hlead.symm
  unfold _make_prefix
  split
  · rfl
  · next level hsome =>
    obtain rfl : level = o.2 := some.inj (hsome.symm.trans hlevel)
    rw [htitle]

theorem log_spec (now : Int) {c : Call} {o : Option Origin} (hkeeps : Keeps rcv threshold o)
    (h : Shows rcv lines cur) (hbegun : Begun o cur) (hheard : heard threshold c = true) :
    Keeps (log now rcv c) threshold (some c.origin) ∧
      ∃ lines' cur', Shows (log now rcv c) lines' cur' ∧ ∀ rest, shown (o.getD c.origin) lines cur
            ((if o = some c.origin then [] else [none]) ++ (textTokens c.origin c.buf ++ rest)) =
          shown c.origin lines' cur' rest := by
  have hheard : heard rcv.max_level c = true := hkeeps.max_level_eq ▸ hheard
  rw [log, hheard, if_neg (by decide)]
  by_cases ho : o = some c.origin
  · subst ho
    obtain ⟨hsource, hlead⟩ := hkeeps.origin_eq c.origin rfl
    have hsame : ¬ (c.source ≠ rcv.last_source ∨ some c.loglevel ≠ rcv.last_level ∨
        rcv.force_new_line = true) := by
      rw [hsource, hkeeps.level_eq, hkeeps.force_eq]
      simp [Call.origin]
    have hkeeps' : Keeps { rcv with last_time := now } threshold (some c.origin) :=
      ⟨hkeeps.max_level_eq, hkeeps.force_eq, hkeeps.level_eq, hkeeps.origin_eq⟩
    have h' : Shows { rcv with last_time := now } lines cur :=
      ⟨h.output_eq, h.at_newline_eq, h.printable, h.cur_printable⟩
    rw [if_neg hsame, if_pos rfl]
    dsimp only
    rw [make_prefix_eq hkeeps', ite_self]
    by_cases htime : rcv.last_time = 0 ∨ now ≠ rcv.last_time
    · rw [if_pos htime]
      exact logLoop_spec c.buf hkeeps' h'
    · rw [if_neg htime]
      exact logLoop_spec c.buf hkeeps h
  · have hother : c.source ≠ rcv.last_source ∨ some c.loglevel ≠ rcv.last_level ∨
        rcv.force_new_line = true := by
      by_contra hnot
      rw [not_or, not_or, not_not, not_not] at hnot
      obtain ⟨hsource, hlevel, -⟩ := hnot
      rw [hkeeps.level_eq] at hlevel
      obtain ⟨p, hp, hplevel⟩ := map_eq_some_iff.mp hlevel.symm
      refine ho (hp.trans (congrArg some ?_))
      exact Prod.ext ((hkeeps.origin_eq p hp).1.symm.trans hsource.symm) hplevel
    have hended : Shows rcv.end_line (closed (o.getD c.origin) lines cur) [] := by
      refine end_line_shows (fun hcur => ?_) h
      cases o with
      | none => exact absurd (hbegun rfl) hcur
      | some p => exact (hkeeps.origin_eq p rfl).2
    have hkept := end_line_keeps hkeeps
    rw [if_pos hother, if_neg ho]
    let opened := _make_prefix { rcv.end_line with
      last_source := c.source, last_level := some c.loglevel, last_time := now }
    have hnew : Keeps opened threshold (some c.origin) :=
      ⟨hkept.max_level_eq, hkept.force_eq, rfl, fun p hp => some.inj hp ▸ ⟨rfl, rfl⟩⟩
    have hstart : Shows opened (closed (o.getD c.origin) lines cur) [] :=
      ⟨hended.output_eq, hended.at_newline_eq, hended.printable, hended.cur_printable⟩
    obtain ⟨hkeeps', lines', cur', hshows, hshown⟩ := logLoop_spec c.buf hnew hstart
    refine ⟨hkeeps', lines', cur', hshows, fun rest => ?_⟩
    rw [← hshown rest]
    exact shown_none _ _ _ _

theorem logAll_spec (now : Int) (calls : List Call) (d : Origin) {o : Option Origin}
    (hkeeps : Keeps rcv threshold o) (h : Shows rcv lines cur) (hbegun : Begun o cur) :
    ∃ o' lines' cur', Shows (logAll now rcv calls) lines' cur' ∧
      (cur' ≠ [] → (logAll now rcv calls).prefix_ = title o') ∧
      shown (o.getD d) lines cur (tokens o (calls.filter (heard threshold))) =
        shown o' lines' cur' [] := by
  induction calls generalizing rcv lines cur o d with
  | nil =>
    refine ⟨o.getD d, lines, cur, h, fun hcur => ?_, rfl⟩
    cases o with
    | none => exact absurd (hbegun rfl) hcur
    | some p => exact (hkeeps.origin_eq p rfl).2
  | cons c calls ih =>
    rw [logAll, foldl_cons]
    by_cases hheard : heard threshold c = true
    · obtain ⟨hkeeps', lines', cur', hshows, hshown⟩ := log_spec now hkeeps h hbegun hheard
      obtain ⟨o', lines'', cur'', hlast, htitle, hrest⟩ := ih d hkeeps' hshows nofun
      refine ⟨o', lines'', cur'', hlast, htitle, ?_⟩
      have horigin : shown (o.getD d) lines cur = shown (o.getD c.origin) lines cur := by
        cases o with
        | none =>
          rw [hbegun rfl]
          rfl
        | some p => rfl
      rw [filter_cons_of_pos hheard, tokens, append_assoc, horigin, hshown]
      exact hrest
    · have hskip : log now rcv c = rcv := by
        rw [log, hkeeps.max_level_eq, if_pos (by simpa using hheard)]
      rw [hskip, filter_cons_of_neg hheard]
      exact ih d hkeeps h hbegun

def init (max_level : Option LogLevel) : WvLogRcv := { max_level := max_level }

theorem filter_isSome_tag (o : Origin) (s : Str) : (tag o s).filter isSome = tag o s := by
  refine filter_eq_self.mpr fun t ht => ?_
  obtain ⟨b, -, rfl⟩ := mem_map.mp ht
  rfl

theorem filter_isSome_textTokens (o : Origin) (buf : Str) :
    (textTokens o buf).filter isSome = tag o (buf.flatMap formatted) := by
  induction buf with
  | nil => rfl
  | cons c buf ih =>
    rw [flatMap_cons, tag_append, ← ih]
    by_cases hc : c = newline ∨ c = 13
    · rw [textTokens, flatMap_cons, if_pos hc, formatted, if_pos hc]
      rfl
    · rw [textTokens_cons hc, filter_append, filter_isSome_tag]

theorem filter_isSome_tokens (o : Option Origin) (calls : List Call) :
    (tokens o calls).filter isSome =
      calls.flatMap fun c => tag c.origin (c.buf.flatMap formatted) := by
  induction calls generalizing o with
  | nil => rfl
  | cons c calls ih =>
    rw [tokens, filter_append, filter_append, ih, filter_isSome_textTokens, flatMap_cons]
    split
    · rfl
    · rfl

/-- What is written are lines with prefixes, none of them empty. They have the bytes of the calls in
order, each in a line of its own source and level, and a line goes on until it is ended or a call
has another source or level. -/
theorem log_lines (now : Int) (max_level : Option LogLevel) (calls : List Call) :
    ∃ lines : List Line, (logAll now (init max_level) calls).output.flatten ++
          (if (logAll now (init max_level) calls).at_newline then [] else [newline]) =
        lines.flatMap Line.print ∧
      (∀ ln ∈ lines, ln.text ≠ [] ∧ ∀ b ∈ ln.text, my_isprint b = true) ∧
      (lines.map fun ln => tag ln.origin ln.text) =
        groups (tokens none (calls.filter (heard max_level))) ∧
      (lines.flatMap fun ln => tag ln.origin ln.text) =
        (calls.filter (heard max_level)).flatMap fun c =>
          tag c.origin (c.buf.flatMap formatted) := by
  have hkeeps : Keeps (init max_level) max_level none := ⟨rfl, rfl, rfl, nofun⟩
  have hshows : Shows (init max_level) [] [] :=
    ⟨rfl, rfl, forall_mem_nil _, forall_mem_nil _⟩
  obtain ⟨o, lines, cur, hlast, htitle, hshown⟩ :=
    logAll_spec now calls (none, .Critical) hkeeps hshows fun _ => rfl
  have hend := end_line_shows htitle hlast
  have hgroups : ((closed o lines cur).map fun ln => tag ln.origin ln.text) =
      groups (tokens none (calls.filter (heard max_level))) := by
    rw [shown, shown, append_nil, groups_tag] at hshown
    refine Eq.trans ?_ hshown.symm
    rw [closed]
    by_cases hcur : cur = []
    · rw [if_pos hcur, if_pos hcur, append_nil]
    · rw [if_neg hcur, if_neg hcur, map_append]
      rfl
  refine ⟨closed o lines cur, ?_, hend.printable, hgroups, ?_⟩
  · have houtput := hend.output_eq
    rw [if_pos rfl, append_nil] at houtput
    rw [← houtput, end_line]
    cases (logAll now (init max_level) calls).at_newline with
    | true => exact append_nil _
    | false =>
      show _ = (_ ++ [[newline]]).flatten
      rw [flatten_append]
      rfl
  · rw [← filter_isSome_tokens none, ← flatten_groups, ← hgroups, flatMap]

end WvLogRcv

end WvStreams
