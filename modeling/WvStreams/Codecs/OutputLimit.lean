import WvStreams.Buffers.Store
import WvStreams.Codecs.EscapeTable

/-!
# Backslash escapes with a limited output buffer

The coders of `Backslash` once more, with an output buffer that takes only so many bytes, and with
what they do when it is full. The caller takes the output away between the calls. That gives
what a buffer without a limit gets exactly if the output is never full too early
(`drained_iff`): the encoder gives bytes back to the wrong buffer then, and the decoder reads its
byte again until `tmpbuf` has no room for it.

`none` is the result of a call that fails an assertion, that of `tmpbuf.putch` included, or that has
too little fuel.
-/

namespace WvStreams

open Lib WvBackslashDecoder List Option WvBackslashDecoder

/-- A buffer of limited size, such as `WvCircularBuf`. What was read from it can be given back
until something else is put into it. -/
structure LimitedBuf where
  size : Nat
  queue : Queue

namespace LimitedBuf

def new (size : Nat) : LimitedBuf := ⟨size, [], []⟩

def free (b : LimitedBuf) : Nat := b.size - b.queue.content.length

def put (b : LimitedBuf) (bytes : Str) : Option LimitedBuf :=
  if bytes = [] then some b
  else if bytes.length ≤ b.free then some ⟨b.size, b.queue.forget.put bytes⟩
  else none

def unget (b : LimitedBuf) (count : Nat) : Option LimitedBuf :=
  if count ≤ b.queue.history.length then some ⟨b.size, b.queue.unget count⟩ else none

def drain (b : LimitedBuf) : LimitedBuf := ⟨b.size, b.queue.get b.queue.content.length⟩

end LimitedBuf

/-- `unget` of an input buffer, with its assertion. -/
def Queue.giveBack (q : Queue) (count : Nat) : Option Queue :=
  if count ≤ q.history.length then some (q.unget count) else none

/-- `optgettable` of an input buffer, by what is left in it: it lies in pieces, none of them
empty. -/
structure Pieces where
  optgettable : Str → Nat
  pos : ∀ s, s ≠ [] → 0 < optgettable s
  le : ∀ s, optgettable s ≤ s.length

namespace LimitedBuf

variable {σ : Type}

/-- A call of a coder: what becomes of the coder and of the two buffers, and the value that is
returned. The first argument says how often a loop may run. -/
abbrev Coder (σ : Type) : Type :=
  Nat → σ → Queue → LimitedBuf → Bool → Option (σ × Queue × LimitedBuf × Bool)

def encode (_encode : Coder σ) : Coder σ := fun fuel e inbuf outbuf flush =>
  if !inbuf.content.isEmpty || flush then _encode fuel e inbuf outbuf flush
  else some (e, inbuf, outbuf, false)

/-- The coder is called and its output taken away, until the input is used up and, where it is to
be flushed, a call has succeeded. -/
def drive (_encode : Coder σ) (flush : Bool) : Nat → σ → Queue → LimitedBuf → Option Str
  | 0, _, _, _ => none
  | fuel + 1, e, inbuf, outbuf =>
    match encode _encode fuel e inbuf outbuf flush with
    | none => none
    | some (e, inbuf, outbuf, success) =>
      if inbuf.content = [] ∧ (flush = true → success = true) then some outbuf.queue.content
      else (drive _encode flush fuel e inbuf outbuf.drain).map (outbuf.queue.content ++ ·)

end LimitedBuf

open Backslash LimitedBuf

namespace WvBackslashEncoder

/-- The `for` loop over the bytes of a piece: what is left of `avail`, and whether it has stopped
because the output is full. -/
def emit (nasties : Str) : Str → Nat → LimitedBuf → Option (LimitedBuf × Nat × Bool)
  | [], avail, outbuf => some (outbuf, avail, false)
  | c :: rest, avail, outbuf =>
    let stop := (outbuf.unget (rest.length + 1)).map fun outbuf => (outbuf, avail, true)
    let write := fun text : Str =>
      (outbuf.put text).bind fun outbuf => emit nasties rest (avail - text.length) outbuf
    if avail < 1 then stop
    else if c ≠ 0 ∧ c ∉ nasties ∧ c ∉ escapein ∧ isprint c = true then write [c]
    else if avail < 2 then stop
    else if c ≠ 0 ∧ c ∈ nasties then write [92, c]
    else if c ≠ 0 ∧ c ∈ escapein then write [92, escapeout.getD (escapein.idxOf c) 0]
    else if avail < 4 then stop
    else write (hex c)

/-- The `while` loop. A piece that was taken from the input is not given back to it. -/
def pieces (p : Pieces) (nasties : Str) (flush : Bool) :
    Nat → Queue → Nat → LimitedBuf → Option (Queue × LimitedBuf × Bool)
  | 0, _, _, _ => none
  | fuel + 1, inbuf, avail, outbuf =>
    let len := p.optgettable inbuf.content
    if len = 0 then some (inbuf, outbuf, true)
    else
      match emit nasties (inbuf.content.take len) avail outbuf with
      | none => none
      | some (outbuf, _, true) => some (inbuf.get len, outbuf, !flush)
      | some (outbuf, avail, false) => pieces p nasties flush fuel (inbuf.get len) avail outbuf

def limited (p : Pieces) : Coder WvBackslashEncoder := fun fuel e inbuf outbuf flush =>
  (pieces p e.nasties flush fuel inbuf outbuf.free outbuf).map fun (inbuf, outbuf, success) =>
    (e, inbuf, outbuf, success)

end WvBackslashEncoder

/-- The decoder with its `tmpbuf` of four bytes, of which `readidx` were read. -/
structure LimitedDecoder where
  self : WvBackslashDecoder := {}
  readidx : Nat := 0

namespace LimitedDecoder

/-- How many bytes of `tmpbuf` the `switch` takes back with `unalloc`. -/
def unalloc (d : WvBackslashDecoder) (c : Byte) : Nat :=
  match d.state with
  | .escape => if c = 120 then 0 else 1
  | .hex1 => if (fromhex c).isSome then 2 else 0
  | _ => 0

def scan (d : LimitedDecoder) (c : Byte) : Option (LimitedDecoder × Bool) :=
  let (next, used) := d.self.scan c
  if unalloc d.self c ≤ d.self.tmpbuf.length ∧ d.readidx + next.tmpbuf.length ≤ 4 then
    some (⟨next, d.readidx⟩, used)
  else none

def flushtmpbuf (d : LimitedDecoder) (outbuf : LimitedBuf) :
    Option (LimitedDecoder × LimitedBuf × Bool) :=
  if d.self.state ≠ .initial then some (d, outbuf, true)
  else
    let tmpbuf := d.self.tmpbuf ++ (d.self.value.map UInt8.ofNat).toList
    if d.readidx + tmpbuf.length ≤ 4 then
      if tmpbuf = [] then some (d, outbuf, true)
      else
        let avail := min outbuf.free tmpbuf.length
        (outbuf.put (tmpbuf.take avail)).map fun outbuf =>
          if avail = tmpbuf.length then ({}, outbuf, true)
          else (⟨⟨.initial, tmpbuf.drop avail, none⟩, d.readidx + avail⟩, outbuf, false)
    else none

/-- The body of the `for` loop up to where it asks if the output is full, and whether the byte was
used. -/
def visit (d : LimitedDecoder) (c : Byte) (outbuf : LimitedBuf) :
    Option (LimitedDecoder × LimitedBuf × Bool) :=
  (d.scan c).bind fun (d, used) =>
    (d.flushtmpbuf outbuf).map fun (d, outbuf, _) => (d, outbuf, used)

/-- The `for` loop over the bytes of a piece. If the output is full it gives back what is left of
the piece, with the byte that it has just used, and with one byte more if that is to be looked at
once more. -/
def bytesLoop : Str → LimitedDecoder → Queue → LimitedBuf →
    Option (LimitedDecoder × Queue × LimitedBuf)
  | [], d, inbuf, outbuf => some (d, inbuf, outbuf)
  | c :: rest, d, inbuf, outbuf =>
    (d.visit c outbuf).bind fun (d, outbuf, used) =>
      if outbuf.free = 0 then
        (inbuf.giveBack (rest.length + if used then 1 else 2)).map fun inbuf => (d, inbuf, outbuf)
      else if used then bytesLoop rest d inbuf outbuf
      else
        -- the state is the initial one now, where every byte is used
        (d.visit c outbuf).bind fun (d, outbuf, _) =>
          if outbuf.free = 0 then
            (inbuf.giveBack (rest.length + 1)).map fun inbuf => (d, inbuf, outbuf)
          else bytesLoop rest d inbuf outbuf

def pieces (p : Pieces) : Nat → LimitedDecoder → Queue → LimitedBuf →
    Option (LimitedDecoder × Queue × LimitedBuf)
  | 0, _, _, _ => none
  | fuel + 1, d, inbuf, outbuf =>
    let len := p.optgettable inbuf.content
    if len = 0 then some (d, inbuf, outbuf)
    else
      (bytesLoop (inbuf.content.take len) d (inbuf.get len) outbuf).bind fun (d, inbuf, outbuf) =>
        pieces p fuel d inbuf outbuf

def limited (p : Pieces) : Coder LimitedDecoder := fun fuel d inbuf outbuf flush =>
  if outbuf.free = 0 then some (d, inbuf, outbuf, inbuf.content.isEmpty)
  else
    (d.flushtmpbuf outbuf).bind fun (d, outbuf, flushed) =>
      if flushed then
        (pieces p fuel d inbuf outbuf).bind fun (d, inbuf, outbuf) =>
          if flush then
            if inbuf.content ≠ [] then some (d, inbuf, outbuf, false)
            else
              (flushtmpbuf { d with self := { d.self with state := .initial } } outbuf).map
                fun (d, outbuf, success) => (d, inbuf, outbuf, success)
          else some (d, inbuf, outbuf, true)
      else some (d, inbuf, outbuf, false)

end LimitedDecoder

/-! ## The room that a text needs -/

namespace Backslash

def width (nasties : Str) (c : Byte) : Nat :=
  if c = 0 then 4
  else if c ∈ nasties ∨ c ∈ escapein then 2
  else if isprint c then 1
  else 4

/-- Whether a text behind a backslash is the start of an escape that may go on. -/
def unfinished : Str → Bool
  | [] => true
  | c :: text =>
    if 48 ≤ c ∧ c ≤ 51 then text.length < 3 ∧ ∀ c ∈ text, (fromoctal c).isSome
    else c = 120 ∧ text.length < 2 ∧ ∀ c ∈ text, (fromhex c).isSome

/-- How many bytes the characters and escapes that are finished in a text stand for: one each, but
two for `\x` without a digit. -/
def finished : Str → Nat
  | [] => 0
  | c :: text =>
    if c = 92 then
      if unfinished text then 0
      else
        (if text.head? = some 120 ∧ leading fromhex 2 text.tail = [] then 2 else 1) +
          finished (readEscape fourDigits text).2
    else finished text + 1
termination_by text => text.length
decreasing_by
  · exact Nat.lt_succ_of_le (length_readEscape_le fourDigits text)
  · exact Nat.lt_succ_self _

theorem finished_nil : finished [] = 0 := by
  rw [finished]

theorem finished_plain {c : Byte} (h : c ≠ 92) (text : Str) :
    finished (c :: text) = finished text + 1 := by
  rw [finished, if_neg h]

theorem finished_backslash (text : Str) :
    finished (92 :: text) =
      if unfinished text then 0
      else (if text.head? = some 120 ∧ leading fromhex 2 text.tail = [] then 2 else 1) +
          finished (readEscape fourDigits text).2 := by
  rw [finished, if_pos rfl]

open WvBackslashEncoder

theorem length_escape (nasties : Str) (c : Byte) : (escape nasties c).length = width nasties c := by
  unfold escape width
  by_cases hnasty : c ∈ nasties
  · simp only [hnasty, true_or, if_true]
    split_ifs <;> rfl
  · simp only [hnasty, false_or, if_false]
    split_ifs <;> rfl

end Backslash

/-! ## The encoder -/

namespace LimitedBuf

/-- A buffer from which nothing was read since something was put into it. -/
def filled (size : Nat) (content : Str) : LimitedBuf := ⟨size, [], content⟩

@[simp] theorem free_filled (size : Nat) (content : Str) :
    (filled size content).free = size - content.length := rfl

theorem put_filled {size : Nat} {content text : Str} (h : content.length + text.length ≤ size) :
    (filled size content).put text = some (filled size (content ++ text)) := by
  unfold put
  split
  · rename_i hnil
    rw [hnil, append_nil]
  · rw [if_pos (by rw [free_filled]; omega)]
    rfl

theorem unget_filled (size : Nat) (content : Str) (count : Nat) :
    (filled size content).unget (count + 1) = none := if_neg (Nat.not_succ_le_zero count)

end LimitedBuf

namespace WvBackslashEncoder

theorem emit_cons (nasties : Str) (c : Byte) (rest : Str) (avail : Nat) (outbuf : LimitedBuf) :
    emit nasties (c :: rest) avail outbuf =
      if avail < (escape nasties c).length then
        (outbuf.unget (rest.length + 1)).map fun outbuf => (outbuf, avail, true)
      else (outbuf.put (escape nasties c)).bind fun outbuf =>
          emit nasties rest (avail - (escape nasties c).length) outbuf := by
  have hhex : (hex c).length = 4 := rfl
  rw [emit, escape]
  by_cases hzero : c = 0
  · simp only [hzero, ne_eq, not_true_eq_false, false_and, if_false, if_true]
    split_ifs <;> first | rfl | (rw [hzero] at hhex; omega)
  by_cases hnasty : c ∈ nasties
  · simp only [hzero, hnasty, ne_eq, not_false_eq_true, not_true_eq_false, true_and, false_and,
      if_false, if_true, length_cons, length_nil]
    split_ifs <;> first | rfl | omega
  by_cases hspecial : c ∈ escapein
  · simp only [hzero, hnasty, hspecial, ne_eq, not_false_eq_true, not_true_eq_false, true_and,
      false_and, if_false, if_true, length_cons, length_nil, and_false]
    split_ifs <;> first | rfl | omega
  by_cases hprint : isprint c = true
  · simp only [hzero, hnasty, hspecial, hprint, ne_eq, not_false_eq_true, and_self, if_false,
      if_true, length_cons, length_nil]
  · simp only [hzero, hnasty, hspecial, hprint, Bool.false_eq_true, and_false, if_false, hhex]
    split_ifs <;> first | rfl | omega

def escaped (nasties data : Str) : Str := data.flatMap (escape nasties)

theorem emit_filled (nasties data : Str) {size : Nat} {content : Str}
    (hle : content.length ≤ size) :
    emit nasties data (size - content.length) (filled size content) =
      if content.length + (escaped nasties data).length ≤ size then
        some (filled size (content ++ escaped nasties data),
          size - (content ++ escaped nasties data).length, false)
      else none := by
  induction data generalizing content with
  | nil =>
    rw [escaped, flatMap_nil, append_nil, length_nil, Nat.add_zero, if_pos hle]
    rfl
  | cons c rest ih =>
    have hcons : escaped nasties (c :: rest) = escape nasties c ++ escaped nasties rest := rfl
    rw [emit_cons, hcons, length_append]
    by_cases hroom : size - content.length < (escape nasties c).length
    · rw [if_pos hroom, unget_filled, if_neg (by omega)]
      rfl
    · have hput : content.length + (escape nasties c).length ≤ size := by omega
      have hnext : size - content.length - (escape nasties c).length =
          size - (content ++ escape nasties c).length := by
        rw [length_append]
        omega
      rw [if_neg hroom, put_filled hput, bind_some, hnext,
        ih (by rw [length_append]; exact hput), length_append, Nat.add_assoc, append_assoc]

theorem escaped_pieces (nasties s : Str) (n : Nat) :
    escaped nasties s = escaped nasties (s.take n) ++ escaped nasties (s.drop n) := by
  rw [escaped, escaped, escaped, ← flatMap_append, take_append_drop]

theorem pieces_fits {p : Pieces} {nasties : Str} {flush : Bool} {fuel : Nat} {inbuf : Queue}
    (hfuel : inbuf.content.length < fuel) {size : Nat} {content : Str}
    (hfits : content.length + (escaped nasties inbuf.content).length ≤ size) :
    ∃ rest : Queue, rest.content = [] ∧
      pieces p nasties flush fuel inbuf (size - content.length) (filled size content) =
        some (rest, filled size (content ++ escaped nasties inbuf.content), true) := by
  induction fuel generalizing inbuf content with
  | zero => cases hfuel
  | succ fuel ih =>
    rw [pieces]
    by_cases hempty : inbuf.content = []
    · have hlen : p.optgettable inbuf.content = 0 := by
        have hle := p.le inbuf.content
        rw [hempty] at hle ⊢
        exact Nat.le_zero.mp hle
      refine ⟨inbuf, hempty, ?_⟩
      rw [if_pos hlen, hempty, escaped, flatMap_nil, append_nil]
    · have hpos := p.pos _ hempty
      have hle := p.le inbuf.content
      have hsplit := escaped_pieces nasties inbuf.content (p.optgettable inbuf.content)
      generalize p.optgettable inbuf.content = len at hpos hle hsplit
      rw [hsplit, length_append] at hfits
      rw [if_neg (by omega), emit_filled nasties _ (by omega), if_pos (by omega)]
      have hrest : (inbuf.get len).content = inbuf.content.drop len := rfl
      obtain ⟨rest, hnil, hrun⟩ : ∃ rest : Queue, rest.content = [] ∧
          pieces p nasties flush fuel (inbuf.get len)
            (size - (content ++ escaped nasties (inbuf.content.take len)).length)
            (filled size (content ++ escaped nasties (inbuf.content.take len))) =
          some (rest, filled size (content ++ escaped nasties (inbuf.content.take len) ++
            escaped nasties (inbuf.get len).content), true) := ih
        (by rw [hrest, length_drop]; omega)
        (by rw [hrest, length_append]; omega)
      refine ⟨rest, hnil, ?_⟩
      dsimp only
      rw [hrun, hrest, append_assoc, ← hsplit]

theorem pieces_full {p : Pieces} {nasties : Str} {flush : Bool} (fuel : Nat) {inbuf : Queue}
    {size : Nat} {content : Str} (hle : content.length ≤ size)
    (hfull : size < content.length + (escaped nasties inbuf.content).length) :
    pieces p nasties flush fuel inbuf (size - content.length) (filled size content) = none := by
  induction fuel generalizing inbuf content with
  | zero => rfl
  | succ fuel ih =>
    have hne : inbuf.content ≠ [] := by
      intro hempty
      rw [hempty] at hfull
      exact absurd hfull (Nat.not_lt.mpr hle)
    have hpos := p.pos _ hne
    have hsplit := escaped_pieces nasties inbuf.content (p.optgettable inbuf.content)
    rw [pieces]
    generalize p.optgettable inbuf.content = len at hpos hsplit
    rw [hsplit, length_append] at hfull
    rw [if_neg (by omega), emit_filled nasties _ hle]
    by_cases hroom : content.length + (escaped nasties (inbuf.content.take len)).length ≤ size
    · rw [if_pos hroom]
      apply ih
      · rw [length_append]
        exact hroom
      · rw [length_append, Nat.add_assoc]
        exact hfull
    · rw [if_neg hroom]

end WvBackslashEncoder

/-! ## The decoder -/

namespace LimitedDecoder

def Shaped (d : WvBackslashDecoder) : Prop :=
  match d.state with
  | .initial => d.tmpbuf = [] ∧ d.value = none
  | .escape => d.tmpbuf.length = 1 ∧ d.value = none
  | .hex1 => d.tmpbuf.length = 2 ∧ d.value = none
  | _ => d.tmpbuf = []

/-- What the `switch` leaves has room in `tmpbuf`, and a byte that is not used leads to the initial
state. -/
structure Scanned (d : WvBackslashDecoder) (c : Byte) : Prop where
  unalloc_le : unalloc d c ≤ d.tmpbuf.length
  room : (d.scan c).1.tmpbuf.length ≤ 3
  again : (d.scan c).2 = false → (d.scan c).1.state = .initial
  shaped : (d.scan c).1.state ≠ .initial → Shaped (d.scan c).1

theorem scanned {d : WvBackslashDecoder} (h : Shaped d) (c : Byte) : Scanned d c := by
  obtain ⟨state, tmpbuf, value⟩ := d
  cases state with
  | initial =>
    obtain ⟨rfl, rfl⟩ := h
    refine ⟨Nat.zero_le _, Nat.le_of_ble_eq_true rfl, nofun, fun hstate => ?_⟩
    have hc : c = 92 := by
      by_contra hc
      exact hstate (if_neg hc)
    subst hc
    exact ⟨rfl, rfl⟩
  | escape =>
    obtain ⟨hlen, rfl⟩ := h
    obtain ⟨b, rfl⟩ := length_eq_one_iff.mp hlen
    constructor
    all_goals
      simp only [unalloc, WvBackslashDecoder.scan, dropLast_singleton]
      split_ifs <;> simp [Shaped]
  | hex1 =>
    obtain ⟨hlen, rfl⟩ := h
    obtain ⟨a, b, rfl⟩ := length_eq_two.mp hlen
    constructor
    all_goals
      simp only [unalloc, WvBackslashDecoder.scan, dropLast]
      cases fromhex c <;> simp [Shaped]
  | hex2 =>
    have hnil : tmpbuf = [] := h
    subst hnil
    constructor
    all_goals
      simp only [unalloc, WvBackslashDecoder.scan]
      cases fromhex c <;> simp
  | octal1 | octal2 | octal3 =>
    have hnil : tmpbuf = [] := h
    subst hnil
    constructor
    all_goals
      simp only [unalloc, WvBackslashDecoder.scan, WvBackslashDecoder.scan.octal]
      cases fromoctal c <;> simp [Shaped]

theorem shaped_flushtmpbuf {d : WvBackslashDecoder} (h : d.state ≠ .initial → Shaped d) :
    Shaped d.flushtmpbuf.1 := by
  rw [WvBackslashDecoder.flushtmpbuf]
  split
  · rename_i hstate
    exact h hstate
  · exact ⟨rfl, rfl⟩

/-! ### A full buffer -/

variable {c : Byte} {d' : LimitedDecoder} {text : Str}

theorem put_free {b b' : LimitedBuf} (h : b.put text = some b') :
    b'.free = b.free - text.length := by
  unfold put at h
  split at h
  · rename_i hnil
    cases h
    rw [hnil]
    rfl
  · split at h
    · cases h
      show b.size - (b.queue.content ++ text).length = b.size - b.queue.content.length - text.length
      rw [length_append]
      omega
    · cases h

variable {d : LimitedDecoder} {outbuf outbuf' : LimitedBuf}

theorem flushtmpbuf_free {success : Bool} (h : d.flushtmpbuf outbuf = some (d', outbuf', success)) :
    outbuf'.free = outbuf.free - d.self.flushtmpbuf.2.length := by
  unfold flushtmpbuf at h
  rw [WvBackslashDecoder.flushtmpbuf]
  split at h
  · rename_i hstate
    cases h
    rw [if_pos hstate]
    rfl
  · rename_i hstate
    rw [if_neg hstate]
    dsimp only at h ⊢
    generalize d.self.tmpbuf ++ (d.self.value.map UInt8.ofNat).toList = text at h ⊢
    split at h
    · split at h
      · rename_i hnil
        cases h
        rw [hnil]
        rfl
      · obtain ⟨b, hput, hb⟩ := map_eq_some_iff.mp h
        have hfree := put_free hput
        have hb' : outbuf' = b := by
          split at hb
          · cases hb
            rfl
          · cases hb
            rfl
        rw [hb', hfree, length_take]
        omega
    · cases h

theorem visit_free {used : Bool} (h : d.visit c outbuf = some (d', outbuf', used)) :
    outbuf'.free = outbuf.free - (d.self.scan c).1.flushtmpbuf.2.length ∧
      used = (d.self.scan c).2 := by
  obtain ⟨⟨mid, used'⟩, hscan, h⟩ := bind_eq_some_iff.mp h
  obtain ⟨⟨d'', outbuf'', success⟩, hflush, h⟩ := map_eq_some_iff.mp h
  cases h
  unfold scan at hscan
  dsimp only at hscan
  split at hscan
  · cases hscan
    exact ⟨flushtmpbuf_free hflush, rfl⟩
  · cases hscan

theorem giveBack_ne {q q' : Queue} {count : Nat} (h : q.giveBack (count + 1) = some q') :
    q'.content ≠ [] := by
  unfold Queue.giveBack at h
  split at h
  · rename_i hle
    cases h
    intro hnil
    have hlen := congrArg length hnil
    simp only [Queue.unget, length_append, length_drop, length_nil] at hlen
    omega
  · cases h

theorem bytesLoop_full {inbuf inbuf' : Queue}
    (c : Byte) (hfull : outbuf.free ≤ (d.self.scan c).1.flushtmpbuf.2.length) (rest : Str)
    (h : bytesLoop (c :: rest) d inbuf outbuf = some (d', inbuf', outbuf')) :
    inbuf'.content ≠ [] ∧ outbuf'.free = 0 := by
  rw [bytesLoop] at h
  obtain ⟨⟨mid, outbuf₁, used⟩, hvisit, h⟩ := bind_eq_some_iff.mp h
  have hfree : outbuf₁.free = 0 := by
    rw [(visit_free hvisit).1, Nat.sub_eq_zero_of_le hfull]
  dsimp only at h
  rw [if_pos hfree] at h
  obtain ⟨inbuf₁, hback, h⟩ := map_eq_some_iff.mp h
  cases h
  refine ⟨?_, hfree⟩
  cases used with
  | true | false => exact giveBack_ne hback

theorem pieces_full {p : Pieces} (fuel : Nat) {inbuf : Queue}
    {outbuf : LimitedBuf} (hfull : outbuf.free = 0) (hne : inbuf.content ≠ []) :
    pieces p fuel d inbuf outbuf = none := by
  induction fuel generalizing d inbuf outbuf with
  | zero => rfl
  | succ fuel ih =>
    have hpos := p.pos _ hne
    rw [pieces, if_neg (by omega)]
    cases htake : inbuf.content.take (p.optgettable inbuf.content) with
    | nil =>
      rcases take_eq_nil_iff.mp htake with hzero | hnil
      · omega
      · exact absurd hnil hne
    | cons c rest =>
      cases hloop : bytesLoop (c :: rest) d (inbuf.get (p.optgettable inbuf.content)) outbuf with
      | none => rfl
      | some r =>
        obtain ⟨d', inbuf', outbuf'⟩ := r
        obtain ⟨hne', hfull'⟩ := bytesLoop_full c (hfull ▸ Nat.zero_le _) rest hloop
        exact ih hfull' hne'

/-! ### A buffer with room -/

variable {d : WvBackslashDecoder}

theorem flushtmpbuf_filled {size : Nat} {content : Str}
    (hroom : d.tmpbuf.length ≤ 3) (hfits : content.length + d.flushtmpbuf.2.length ≤ size) :
    flushtmpbuf ⟨d, 0⟩ (filled size content) =
      some (⟨d.flushtmpbuf.1, 0⟩, filled size (content ++ d.flushtmpbuf.2), true) := by
  by_cases hstate : d.state ≠ .initial
  · have hnothing : d.flushtmpbuf = (d, []) := if_pos hstate
    rw [hnothing, append_nil]
    exact if_pos hstate
  · have hall : d.flushtmpbuf = ({}, d.tmpbuf ++ (d.value.map UInt8.ofNat).toList) := if_neg hstate
    rw [hall] at hfits ⊢
    have hvalue : (d.value.map UInt8.ofNat).toList.length ≤ 1 := by
      cases d.value <;> simp
    have hfour : 0 + (d.tmpbuf ++ (d.value.map UInt8.ofNat).toList).length ≤ 4 := by
      rw [length_append]
      omega
    rw [flushtmpbuf, if_neg hstate]
    dsimp only at hfits ⊢
    rw [if_pos hfour]
    split
    · rename_i hnil
      obtain ⟨htmpbuf, hnone⟩ := append_eq_nil_iff.mp hnil
      rw [hnil, append_nil]
      obtain ⟨state, tmpbuf, value⟩ := d
      have hinitial : state = .initial := Decidable.not_not.mp hstate
      have hempty : tmpbuf = [] := htmpbuf
      subst hinitial hempty
      cases value with
      | none => rfl
      | some value => cases hnone
    · have hmin : min (filled size content).free
          (d.tmpbuf ++ (d.value.map UInt8.ofNat).toList).length =
            (d.tmpbuf ++ (d.value.map UInt8.ofNat).toList).length := by
        rw [free_filled]
        omega
      rw [hmin, take_length, put_filled hfits]
      exact congrArg some (if_pos rfl)

theorem visit_filled (hd : Shaped d) (c : Byte) {size : Nat} {content : Str}
    (hfits : content.length + (d.scan c).1.flushtmpbuf.2.length ≤ size) :
    visit ⟨d, 0⟩ c (filled size content) =
      some (⟨(d.scan c).1.flushtmpbuf.1, 0⟩,
        filled size (content ++ (d.scan c).1.flushtmpbuf.2), (d.scan c).2) := by
  have h := scanned hd c
  have hscan : scan ⟨d, 0⟩ c = some (⟨(d.scan c).1, 0⟩, (d.scan c).2) := by
    unfold scan
    dsimp only
    rw [if_pos ⟨h.unalloc_le, by have hroom := h.room; omega⟩]
  rw [visit, hscan, bind_some]
  dsimp only
  rw [flushtmpbuf_filled h.room hfits]
  rfl

theorem step_used (h : (d.scan c).2 = true) : d.step c = (d.scan c).1.flushtmpbuf := by
  rw [step]
  dsimp only
  rw [if_pos h]

theorem step_again (h : (d.scan c).2 = false) :
    let next := (d.scan c).1.flushtmpbuf
    d.step c = ((next.1.scan c).1.flushtmpbuf.1, next.2 ++ (next.1.scan c).1.flushtmpbuf.2) := by
  rw [step]
  dsimp only
  rw [h, if_neg Bool.false_ne_true]

theorem shaped_scan (hd : Shaped d) (c : Byte) : Shaped (d.scan c).1.flushtmpbuf.1 :=
  shaped_flushtmpbuf (scanned hd c).shaped

theorem shaped_step (hd : Shaped d) (c : Byte) : Shaped (d.step c).1 := by
  cases hused : (d.scan c).2 with
  | true =>
    rw [step_used hused]
    exact shaped_scan hd c
  | false =>
    rw [step_again hused]
    exact shaped_scan (shaped_scan hd c) c

variable {d : WvBackslashDecoder} {size : Nat} {content : Str}

theorem free_lt (h : content.length + text.length < size) :
    (filled size (content ++ text)).free ≠ 0 := by
  rw [free_filled, length_append]
  omega

theorem bytesLoop_cons_fits (hd : Shaped d) (hfits : content.length + (d.step c).2.length < size)
    (rest : Str) (inbuf : Queue) :
    bytesLoop (c :: rest) ⟨d, 0⟩ inbuf (filled size content) =
      bytesLoop rest ⟨(d.step c).1, 0⟩ inbuf (filled size (content ++ (d.step c).2)) := by
  cases hused : (d.scan c).2 with
  | true =>
    rw [step_used hused] at hfits ⊢
    rw [bytesLoop, visit_filled hd c hfits.le, bind_some]
    dsimp only
    rw [if_neg (free_lt hfits), if_pos hused]
  | false =>
    rw [step_again hused] at hfits ⊢
    rw [length_append] at hfits
    have hfirst : content.length + (d.scan c).1.flushtmpbuf.2.length < size := by omega
    have hsecond : (content ++ (d.scan c).1.flushtmpbuf.2).length +
        ((d.scan c).1.flushtmpbuf.1.scan c).1.flushtmpbuf.2.length < size := by
      rw [length_append]
      omega
    rw [bytesLoop, visit_filled hd c hfirst.le, bind_some]
    dsimp only
    rw [if_neg (free_lt hfirst), hused, if_neg Bool.false_ne_true,
      visit_filled (shaped_scan hd c) c hsecond.le, bind_some]
    rw [if_neg (free_lt hsecond), append_assoc]

theorem bytesLoop_cons_stops (hd : Shaped d)
    (hstops : size ≤ content.length + (d.step c).2.length) {rest : Str} {inbuf inbuf' : Queue}
    {outbuf' : LimitedBuf}
    (h : bytesLoop (c :: rest) ⟨d, 0⟩ inbuf (filled size content) = some (d', inbuf', outbuf')) :
    inbuf'.content ≠ [] ∧ outbuf'.free = 0 := by
  by_cases hfull : size ≤ content.length + (d.scan c).1.flushtmpbuf.2.length
  · -- the first look at the byte fills it
    refine bytesLoop_full c ?_ rest h
    rw [free_filled]
    exact Nat.sub_le_iff_le_add'.mpr hfull
  · cases hused : (d.scan c).2 with
    | true =>
      rw [step_used hused] at hstops
      exact absurd hstops hfull
    | false =>
      rw [step_again hused] at hstops
      rw [length_append] at hstops
      rw [bytesLoop, visit_filled hd c (Nat.not_le.mp hfull).le, bind_some] at h
      dsimp only at h
      rw [if_neg (free_lt (Nat.not_le.mp hfull)), hused, if_neg Bool.false_ne_true] at h
      obtain ⟨⟨mid, outbuf₁, used⟩, hvisit, h⟩ := bind_eq_some_iff.mp h
      have hfree : outbuf₁.free = 0 := by
        rw [(visit_free hvisit).1, free_filled, length_append]
        dsimp only
        omega
      rw [if_pos hfree] at h
      obtain ⟨inbuf₁, hback, h⟩ := map_eq_some_iff.mp h
      cases h
      exact ⟨giveBack_ne hback, hfree⟩

def decoded (d : WvBackslashDecoder) (text : Str) : WvBackslashDecoder × Str :=
  let r := loop.run ⟨true, false, d⟩ text
  (r.1.self, r.2)

theorem decoded_cons (d : WvBackslashDecoder) (c : Byte) (text : Str) :
    decoded d (c :: text) =
      ((decoded (d.step c).1 text).1, (d.step c).2 ++ (decoded (d.step c).1 text).2) := rfl

theorem decoded_append (d : WvBackslashDecoder) (s t : Str) :
    decoded d (s ++ t) =
      ((decoded (decoded d s).1 t).1, (decoded d s).2 ++ (decoded (decoded d s).1 t).2) := by
  induction s generalizing d with
  | nil => rfl
  | cons c s ih => rw [cons_append, decoded_cons, ih, decoded_cons, append_assoc]

theorem shaped_decoded (hd : Shaped d) (text : Str) : Shaped (decoded d text).1 := by
  induction text generalizing d with
  | nil => exact hd
  | cons c text ih => exact ih (shaped_step hd c)

theorem bytesLoop_fits (hd : Shaped d) (hfits : content.length + (decoded d text).2.length < size)
    (inbuf : Queue) :
    bytesLoop text ⟨d, 0⟩ inbuf (filled size content) =
      some (⟨(decoded d text).1, 0⟩, inbuf, filled size (content ++ (decoded d text).2)) := by
  induction text generalizing d content with
  | nil => exact congrArg (fun s => some (_, inbuf, filled size s)) (append_nil _).symm
  | cons c text ih =>
    rw [decoded_cons, length_append] at hfits
    rw [bytesLoop_cons_fits hd (by omega), ih (shaped_step hd c)
      (by rw [length_append]; omega), decoded_cons, append_assoc]

theorem bytesLoop_stops (hd : Shaped d) (hlt : content.length < size)
    (hstops : size ≤ content.length + (decoded d text).2.length) {inbuf inbuf' : Queue}
    {outbuf' : LimitedBuf}
    (h : bytesLoop text ⟨d, 0⟩ inbuf (filled size content) = some (d', inbuf', outbuf')) :
    inbuf'.content ≠ [] ∧ outbuf'.free = 0 := by
  induction text generalizing d content with
  | nil => exact absurd hstops (Nat.not_le.mpr hlt)
  | cons c text ih =>
    by_cases hfull : size ≤ content.length + (d.step c).2.length
    · exact bytesLoop_cons_stops hd hfull h
    · rw [bytesLoop_cons_fits hd (Nat.not_le.mp hfull)] at h
      rw [decoded_cons, length_append] at hstops
      apply ih (shaped_step hd c) _ _ h
      · rw [length_append]
        exact Nat.not_le.mp hfull
      · rw [length_append, Nat.add_assoc]
        exact hstops

/-! ### All pieces -/

theorem optgettable_nil (p : Pieces) : p.optgettable [] = 0 := Nat.le_zero.mp (p.le [])

theorem pieces_fits {p : Pieces} (hd : Shaped d) {fuel : Nat} {inbuf : Queue}
    (hfuel : inbuf.content.length < fuel)
    (hfits : content.length + (decoded d inbuf.content).2.length < size) :
    ∃ rest : Queue, rest.content = [] ∧ pieces p fuel ⟨d, 0⟩ inbuf (filled size content) =
        some (⟨(decoded d inbuf.content).1, 0⟩, rest,
          filled size (content ++ (decoded d inbuf.content).2)) := by
  induction fuel generalizing d inbuf content with
  | zero => cases hfuel
  | succ fuel ih =>
    rw [pieces]
    by_cases hempty : inbuf.content = []
    · refine ⟨inbuf, hempty, ?_⟩
      rw [hempty, if_pos (optgettable_nil p)]
      exact congrArg (fun s => some (_, inbuf, filled size s)) (append_nil _).symm
    · have hpos := p.pos _ hempty
      have hle := p.le inbuf.content
      generalize p.optgettable inbuf.content = len at hpos hle
      have hsplit := decoded_append d (inbuf.content.take len) (inbuf.content.drop len)
      rw [take_append_drop] at hsplit
      rw [hsplit, length_append] at hfits
      rw [if_neg (by omega), bytesLoop_fits hd (by omega), bind_some]
      have hrest : (inbuf.get len).content = inbuf.content.drop len := rfl
      obtain ⟨rest, hnil, hrun⟩ : ∃ rest : Queue, rest.content = [] ∧
          pieces p fuel ⟨(decoded d (inbuf.content.take len)).1, 0⟩ (inbuf.get len)
            (filled size (content ++ (decoded d (inbuf.content.take len)).2)) =
          some (⟨(decoded (decoded d (inbuf.content.take len)).1 (inbuf.get len).content).1, 0⟩,
            rest, filled size (content ++ (decoded d (inbuf.content.take len)).2 ++
              (decoded (decoded d (inbuf.content.take len)).1 (inbuf.get len).content).2)) := ih
        (shaped_decoded hd (inbuf.content.take len))
        (by rw [hrest, length_drop]; omega)
        (by rw [hrest, length_append]; omega)
      refine ⟨rest, hnil, ?_⟩
      dsimp only
      rw [hrun, hrest, hsplit, append_assoc]

theorem pieces_stops {p : Pieces} (hd : Shaped d) (hlt : content.length < size) (fuel : Nat)
    {inbuf : Queue} (hstops : size ≤ content.length + (decoded d inbuf.content).2.length) :
    pieces p fuel ⟨d, 0⟩ inbuf (filled size content) = none := by
  induction fuel generalizing d inbuf content with
  | zero => rfl
  | succ fuel ih =>
    have hne : inbuf.content ≠ [] := by
      intro hempty
      rw [hempty] at hstops
      exact absurd hstops (Nat.not_le.mpr hlt)
    have hpos := p.pos _ hne
    rw [pieces]
    generalize p.optgettable inbuf.content = len at hpos
    rw [if_neg (by omega)]
    by_cases hfits : content.length + (decoded d (inbuf.content.take len)).2.length < size
    · rw [bytesLoop_fits hd hfits, bind_some]
      have hsplit := decoded_append d (inbuf.content.take len) (inbuf.content.drop len)
      rw [take_append_drop] at hsplit
      rw [hsplit, length_append] at hstops
      apply ih (shaped_decoded hd _)
      · rw [length_append]
        exact hfits
      · rw [length_append, Nat.add_assoc]
        exact hstops
    · cases hloop : bytesLoop (inbuf.content.take len) ⟨d, 0⟩ (inbuf.get len)
        (filled size content) with
      | none => rfl
      | some r =>
        obtain ⟨d', inbuf', outbuf'⟩ := r
        obtain ⟨hne', hfull⟩ := bytesLoop_stops hd hlt (Nat.not_lt.mp hfits) hloop
        exact pieces_full fuel hfull hne'

/-! ### What is decoded before a flush -/

theorem decoded_inside {d d' : WvBackslashDecoder} (h : d.scan c = (d', true))
    (hstate : d'.state ≠ .initial) (text : Str) :
    (decoded d (c :: text)).2 = (decoded d' text).2 := by
  have hstep : d.step c = (d', []) := by
    rw [step_used (by rw [h]), h, WvBackslashDecoder.flushtmpbuf, if_pos hstate]
  rw [decoded_cons, hstep]
  rfl

theorem decoded_last {d d' : WvBackslashDecoder} (h : d.scan c = (d', true))
    (hstate : d'.state = .initial) (text : Str) :
    (decoded d (c :: text)).2 =
      d'.tmpbuf ++ (d'.value.map UInt8.ofNat).toList ++ (decoded {} text).2 := by
  have hstep : d.step c = ({}, d'.tmpbuf ++ (d'.value.map UInt8.ofNat).toList) := by
    rw [step_used (by rw [h]), h, WvBackslashDecoder.flushtmpbuf, if_neg (not_not_intro hstate)]
  rw [decoded_cons, hstep]

theorem decoded_again {d : WvBackslashDecoder}
    (h : d.scan c = ({ d with state := .initial }, false)) (text : Str) :
    (decoded d (c :: text)).2 =
      d.tmpbuf ++ (d.value.map UInt8.ofNat).toList ++ (decoded {} (c :: text)).2 := by
  have hstep : d.step c = ((WvBackslashDecoder.step {} c).1,
      d.tmpbuf ++ (d.value.map UInt8.ofNat).toList ++ (WvBackslashDecoder.step {} c).2) := by
    rw [WvBackslashDecoder.step, h]
    rfl
  rw [decoded_cons, hstep, decoded_cons]
  exact append_assoc _ _ _

theorem decoded_octal {n : Nat} (hn : n < 3) (value : Nat) (text : Str) :
    (decoded ⟨octalState (n + 1), [], some value⟩ text).2.length =
      if text.length < n + 1 ∧ ∀ c ∈ text, (fromoctal c).isSome then 0
      else
        1 + (decoded {} (text.drop (leading fromoctal (n + 1) text).length)).2.length := by
  induction text generalizing n value with
  | nil => simp [decoded, Transducer.run]
  | cons c text ih =>
    have hscan := scan_octal hn value c
    rw [leading_cons]
    cases hc : fromoctal c with
    | none =>
      rw [hc] at hscan
      rw [decoded_again hscan, length_append, if_neg (by simp [hc])]
      rfl
    | some digit =>
      rw [hc] at hscan
      cases n with
      | zero =>
        rw [decoded_last hscan rfl, length_append, if_neg (by simp)]
        rfl
      | succ n =>
        rw [decoded_inside hscan (octalState_ne (by omega)), ih (by omega)]
        simp [hc]

theorem decoded_hex (text : Str) :
    (decoded ⟨.hex1, [92, 120], none⟩ text).2.length =
      if text.length < 2 ∧ ∀ c ∈ text, (fromhex c).isSome then 0
      else (if leading fromhex 2 text = [] then 2 else 1) +
          (decoded {} (text.drop (leading fromhex 2 text).length)).2.length := by
  cases text with
  | nil => rfl
  | cons c text =>
    rw [leading_cons]
    cases hc : fromhex c with
    | none =>
      have hscan : WvBackslashDecoder.scan ⟨.hex1, [92, 120], none⟩ c =
          (⟨.initial, [92, 120], none⟩, false) := by
        simp only [WvBackslashDecoder.scan, hc]
      rw [decoded_again hscan, length_append, if_neg (by simp [hc])]
      rfl
    | some digit =>
      have hscan : WvBackslashDecoder.scan ⟨.hex1, [92, 120], none⟩ c =
          (⟨.hex2, [], some digit⟩, true) := by
        simp only [WvBackslashDecoder.scan, hc]
        rfl
      rw [decoded_inside hscan (by simp)]
      cases text with
      | nil => simp [decoded, Transducer.run, hc]
      | cons c' text =>
        rw [if_neg (by simp), leading_cons]
        cases hc' : fromhex c' with
        | none =>
          have hscan' : WvBackslashDecoder.scan ⟨.hex2, [], some digit⟩ c' =
              (⟨.initial, [], some digit⟩, false) := by
            simp only [WvBackslashDecoder.scan, hc']
          rw [decoded_again hscan', length_append]
          simp
        | some digit' =>
          have hscan' : WvBackslashDecoder.scan ⟨.hex2, [], some digit⟩ c' =
              (⟨.initial, [], some (digit <<< 4 ||| digit')⟩, true) := by
            simp only [WvBackslashDecoder.scan, hc', map_some]
          rw [decoded_last hscan' rfl, length_append]
          simp [leading]

theorem decoded_escape (text : Str) :
    (decoded ⟨.escape, [92], none⟩ text).2.length =
      if unfinished text then 0
      else (if text.head? = some 120 ∧ leading fromhex 2 text.tail = [] then 2 else 1) +
          (decoded {} (readEscape fourDigits text).2).2.length := by
  cases text with
  | nil => rfl
  | cons c text =>
    unfold readEscape unfinished
    dsimp only [head?_cons, tail_cons]
    by_cases hoctal : 48 ≤ c ∧ c ≤ 51
    · have hscan : WvBackslashDecoder.scan ⟨.escape, [92], none⟩ c =
          (⟨octalState 3, [], some (c.toNat - 48)⟩, true) := by
        simp only [WvBackslashDecoder.scan, if_pos hoctal]
        rfl
      have hne : c ≠ 120 := by
        rintro rfl
        revert hoctal
        decide
      have hdigit : (fromoctal c).isSome := by
        rw [fromoctal, if_pos ⟨hoctal.1, UInt8.le_trans hoctal.2 (by decide)⟩]
        rfl
      have hleading : leading fromoctal 4 (c :: text) = c :: leading fromoctal 3 text := by
        rw [leading_cons, if_pos hdigit]
      rw [decoded_inside hscan (octalState_ne (n := 2) (by omega)), decoded_octal (by omega)]
      simp [hoctal, hne, fourDigits, hleading]
    by_cases hhex : c = 120
    · have hscan : WvBackslashDecoder.scan ⟨.escape, [92], none⟩ c =
          (⟨.hex1, [92, 120], none⟩, true) := by
        rw [hhex]
        rfl
      rw [decoded_inside hscan (by simp), decoded_hex]
      simp [hhex]
    · have hlast : ∃ written, WvBackslashDecoder.scan ⟨.escape, [92], none⟩ c =
          (⟨.initial, [written], none⟩, true) := by
        by_cases hline : c = 10
        · exact ⟨10, by rw [hline]; rfl⟩
        · refine ⟨if c ∈ escapeout then escapein.getD (escapeout.idxOf c) 0 else c, ?_⟩
          simp only [WvBackslashDecoder.scan, if_neg hoctal, if_neg hhex, if_neg hline]
          rfl
      obtain ⟨written, hscan⟩ := hlast
      rw [decoded_last hscan rfl, length_append]
      simp only [hoctal, hhex, if_false, false_and, decide_false, some.injEq, Bool.false_eq_true]
      split <;> rfl

theorem decoded_length (text : Str) : (decoded {} text).2.length = finished text := by
  induction hn : text.length using Nat.strong_induction_on generalizing text with
  | _ n ih =>
    subst hn
    cases text with
    | nil => rw [finished_nil]; rfl
    | cons c text =>
      by_cases hc : c = 92
      · subst hc
        have hle := length_readEscape_le fourDigits text
        have hscan : WvBackslashDecoder.scan {} 92 = (⟨.escape, [92], none⟩, true) := rfl
        rw [decoded_inside hscan (by simp), decoded_escape, finished_backslash,
          ih _ (Nat.lt_succ_of_le hle) _ rfl]
      · have hscan : WvBackslashDecoder.scan {} c = (⟨.initial, [c], none⟩, true) := by
          simp [WvBackslashDecoder.scan, hc]
        rw [decoded_last hscan rfl, length_append, finished_plain hc,
          ih _ (Nat.lt_succ_self _) _ rfl, Nat.add_comm]
        rfl

end LimitedDecoder

/-! ## Calls until the input is used up -/

namespace LimitedBuf

variable {σ : Type} {_encode : Coder σ} {flush : Bool} {e e' : σ} {inbuf inbuf' : Queue}
  {outbuf outbuf' : LimitedBuf} {fuel : Nat}

theorem drive_none (h : ∀ fuel, encode _encode fuel e inbuf outbuf flush = none) (fuel : Nat) :
    drive _encode flush fuel e inbuf outbuf = none := by
  cases fuel with
  | zero => rfl
  | succ fuel => rw [drive, h]

theorem drive_last {success : Bool}
    (h : encode _encode fuel e inbuf outbuf flush = some (e', inbuf', outbuf', success))
    (hnil : inbuf'.content = []) (hsuccess : flush = true → success = true) :
    drive _encode flush (fuel + 1) e inbuf outbuf = some outbuf'.queue.content := by
  rw [drive, h]
  exact if_pos ⟨hnil, hsuccess⟩

theorem drive_again {success : Bool}
    (h : encode _encode fuel e inbuf outbuf flush = some (e', inbuf', outbuf', success))
    (hagain : ¬ (inbuf'.content = [] ∧ (flush = true → success = true))) :
    drive _encode flush (fuel + 1) e inbuf outbuf =
      (drive _encode flush fuel e' inbuf' outbuf'.drain).map (outbuf'.queue.content ++ ·) := by
  rw [drive, h]
  exact if_neg hagain

theorem encode_idle (h : inbuf.content = []) :
    encode _encode fuel e inbuf outbuf false = some (e, inbuf, outbuf, false) := by
  rw [encode, h]
  rfl

theorem encode_called (h : inbuf.content ≠ [] ∨ flush = true) :
    encode _encode fuel e inbuf outbuf flush = _encode fuel e inbuf outbuf flush := by
  unfold encode
  rw [if_pos]
  rcases h with h | h
  · simp [h]
  · simp [h]

end LimitedBuf

namespace WvBackslashEncoder

theorem encode_escaped (nasties input : Str) (flush : Bool) :
    ((new nasties).encode methods input flush false).2.1 = escaped nasties input := by
  have hrun : ∀ s, (loop.run (new nasties) s).2 = escaped nasties s := by
    intro s
    induction s with
    | nil => rfl
    | cons c s ih => exact congrArg (escape nasties c ++ ·) ih
  cases input with
  | nil => cases flush <;> rfl
  | cons c input => exact hrun (c :: input)

theorem escaped_length (nasties data : Str) :
    (escaped nasties data).length = (data.map (width nasties)).sum := by
  rw [escaped, length_flatMap]
  congr 1
  apply map_congr_left
  intro c _
  exact length_escape nasties c

theorem drained (p : Pieces) (nasties input : Str) (limit : Nat) (flush : Bool) :
    (∃ fuel, drive (limited p) flush fuel ⟨nasties⟩ ⟨[], input⟩ (LimitedBuf.new limit) =
        some (escaped nasties input)) ↔ (escaped nasties input).length ≤ limit := by
  have hnew : LimitedBuf.new limit = filled limit [] := rfl
  have hzero : ([] : Str).length + (escaped nasties input).length =
      (escaped nasties input).length := Nat.zero_add _
  rw [hnew]
  constructor
  · rintro ⟨fuel, h⟩
    by_contra hfull
    have hcalled : input ≠ [] := by
      rintro rfl
      exact hfull (Nat.zero_le _)
    have hnone : ∀ fuel,
        encode (limited p) fuel ⟨nasties⟩ ⟨[], input⟩ (filled limit []) flush = none := by
      intro fuel
      have hpieces : pieces p nasties flush fuel ⟨[], input⟩ (limit - ([] : Str).length)
          (filled limit []) = none :=
        pieces_full fuel (Nat.zero_le limit) ((Nat.not_le.mp hfull).trans_eq hzero.symm)
      rw [encode_called (Or.inl hcalled), limited]
      exact congrArg (Option.map _) hpieces
    rw [drive_none hnone] at h
    cases h
  · intro hfits
    obtain ⟨rest, hnil, hrun⟩ : ∃ rest : Queue, rest.content = [] ∧
        pieces p nasties flush (input.length + 1) ⟨[], input⟩ (limit - ([] : Str).length)
          (filled limit []) = some (rest, filled limit ([] ++ escaped nasties input), true) :=
      pieces_fits (Nat.lt_succ_self _) (hzero.trans_le hfits)
    by_cases hidle : input = [] ∧ flush = false
    · obtain ⟨rfl, rfl⟩ := hidle
      exact ⟨1, drive_last (encode_idle rfl) rfl nofun⟩
    · have hcalled : input ≠ [] ∨ flush = true := by
        rw [not_and_or, Bool.not_eq_false] at hidle
        exact hidle
      have hcall : encode (limited p) (input.length + 1) ⟨nasties⟩ ⟨[], input⟩ (filled limit [])
          flush = some (⟨nasties⟩, rest, filled limit (escaped nasties input), true) := by
        rw [encode_called hcalled, limited]
        exact congrArg (Option.map _) hrun
      exact ⟨_, drive_last hcall hnil fun _ => rfl⟩

end WvBackslashEncoder

namespace LimitedDecoder

variable {d : WvBackslashDecoder} {size : Nat} {content : Str}

def tail (d : WvBackslashDecoder) : Str := d.tmpbuf ++ (d.value.map UInt8.ofNat).toList

theorem encode_decoded (input : Str) (flush : Bool) :
    (new.encode methods input flush false).2.1 =
      (decoded {} input).2 ++ if flush then tail (decoded {} input).1 else [] := by
  cases input with
  | nil => cases flush <;> rfl
  | cons c input =>
    cases flush with
    | false => exact (append_nil _).symm
    | true => rfl

theorem tail_length (hd : Shaped d) : d.tmpbuf.length ≤ 2 ∧ (tail d).length ≤ 2 := by
  obtain ⟨state, tmpbuf, value⟩ := d
  have hvalue : (value.map UInt8.ofNat).toList.length ≤ 1 := by
    cases value <;> simp
  cases state with
  | initial =>
    obtain ⟨rfl, rfl⟩ := hd
    exact ⟨Nat.zero_le _, Nat.zero_le _⟩
  | escape | hex1 =>
    obtain ⟨hlen, rfl⟩ := hd
    exact ⟨by omega, by simp [tail, hlen]⟩
  | hex2 | octal1 | octal2 | octal3 =>
    obtain rfl : tmpbuf = [] := hd
    exact ⟨Nat.zero_le _, hvalue.trans (by omega)⟩

theorem limited_nil (p : Pieces) {inbuf : Queue} (hnil : inbuf.content = []) (fuel : Nat)
    (d : LimitedDecoder) (outbuf : LimitedBuf) :
    pieces p (fuel + 1) d inbuf outbuf = some (d, inbuf, outbuf) := by
  rw [pieces, hnil]
  exact if_pos (optgettable_nil p)

theorem flushtmpbuf_initial {tmpbuf : Str} {value : Option Nat} {readidx : Nat} {text : Str}
    (htext : tmpbuf ++ (value.map UInt8.ofNat).toList = text) (hne : text ≠ [])
    (hroom : readidx + text.length ≤ 4) (outbuf : LimitedBuf) :
    flushtmpbuf ⟨⟨.initial, tmpbuf, value⟩, readidx⟩ outbuf =
      (outbuf.put (text.take (min outbuf.free text.length))).map fun outbuf' =>
        if min outbuf.free text.length = text.length then ({}, outbuf', true)
        else (⟨⟨.initial, text.drop (min outbuf.free text.length), none⟩,
            readidx + min outbuf.free text.length⟩, outbuf', false) := by
  unfold flushtmpbuf
  simp only [htext, ne_eq, not_true_eq_false, if_false, if_pos hroom, if_neg hne]

theorem drive_second (p : Pieces) {inbuf : Queue} (hnil : inbuf.content = []) (fuel : Nat) (b : Byte)
    (readidx : Nat) (hreadidx : readidx ≤ 3) (hsize : 0 < size) :
    drive (limited p) true (fuel + 2) ⟨⟨.initial, [b], none⟩, readidx⟩ inbuf
      (filled size content).drain = some [b] := by
  have hfree : (filled size content).drain.free = size := by
    show size - (content.drop content.length).length = size
    rw [drop_length]
    rfl
  have hput : (filled size content).drain.put [b] = some (filled size [b]) := by
    rw [LimitedBuf.put, if_neg nofun, hfree, if_pos (show [b].length ≤ size from hsize)]
    show some (LimitedBuf.mk size ⟨[], content.drop content.length ++ [b]⟩) = _
    rw [drop_length]
    rfl
  have hflush : flushtmpbuf ⟨⟨.initial, [b], none⟩, readidx⟩ (filled size content).drain =
      some ({}, filled size [b], true) := by
    have hmin : min size [b].length = 1 := Nat.min_eq_right hsize
    have htext : [b] ++ ((none : Option Nat).map UInt8.ofNat).toList = [b] := rfl
    rw [flushtmpbuf_initial htext (cons_ne_nil b []) (Nat.succ_le_succ hreadidx), hfree, hmin]
    exact congrArg (Option.map _) hput
  have hcall : encode (limited p) (fuel + 1) ⟨⟨.initial, [b], none⟩, readidx⟩ inbuf
      (filled size content).drain true = some ({}, inbuf, filled size [b], true) := by
    rw [encode_called (Or.inr rfl), limited, hfree, if_neg (Nat.pos_iff_ne_zero.mp hsize), hflush,
      Option.bind_some]
    dsimp only
    rw [if_pos rfl, limited_nil p hnil, Option.bind_some]
    rw [if_pos rfl, if_neg (not_not_intro hnil)]
    rfl
  exact drive_last hcall hnil fun _ => rfl

theorem flush_tail (hd : Shaped d) (hlt : content.length < size) :
    flushtmpbuf ⟨{ d with state := .initial }, 0⟩ (filled size content) =
        some ({}, filled size (content ++ tail d), true) ∨ ∃ a b, tail d = [a, b] ∧
        flushtmpbuf ⟨{ d with state := .initial }, 0⟩ (filled size content) =
          some (⟨⟨.initial, [b], none⟩, 1⟩, filled size (content ++ [a]), false) := by
  obtain ⟨htmpbuf, htwo⟩ := tail_length hd
  by_cases hfits : content.length + (tail d).length ≤ size
  · exact Or.inl (flushtmpbuf_filled (Nat.le_succ_of_le htmpbuf) hfits)
  · obtain ⟨a, b, htail⟩ : ∃ a b, tail d = [a, b] := length_eq_two.mp (by omega)
    have hmin : min (filled size content).free [a, b].length = 1 := by
      rw [htail] at hfits
      simp only [length_cons, length_nil, free_filled] at hfits ⊢
      omega
    have hput : (filled size content).put [a] = some (filled size (content ++ [a])) :=
      put_filled hlt
    refine Or.inr ⟨a, b, htail, ?_⟩
    rw [flushtmpbuf_initial htail (cons_ne_nil a [b]) (Nat.le_of_ble_eq_true rfl), hmin]
    exact congrArg (Option.map _) hput

theorem drive_zero (p : Pieces) {input : Str} (hne : input ≠ []) (flush : Bool) (fuel : Nat) :
    drive (limited p) flush fuel {} ⟨[], input⟩ (filled 0 []) = none := by
  induction fuel with
  | zero => rfl
  | succ fuel ih =>
    have hcall : encode (limited p) fuel {} ⟨[], input⟩ (filled 0 []) flush =
        some ({}, ⟨[], input⟩, filled 0 [], input.isEmpty) := by
      rw [encode_called (Or.inl hne)]
      rfl
    rw [drive_again hcall fun h => hne h.1]
    exact congrArg (Option.map _) ih

theorem shaped_new : Shaped {} := ⟨rfl, rfl⟩

theorem encode_room (p : Pieces) {input : Str} {limit : Nat} {flush : Bool} (fuel : Nat)
    (hcalled : input ≠ [] ∨ flush = true) (hpos : 0 < limit) :
    encode (limited p) fuel {} ⟨[], input⟩ (filled limit []) flush =
      (pieces p fuel {} ⟨[], input⟩ (filled limit [])).bind fun (d, inbuf, outbuf) =>
        if flush then
          if inbuf.content ≠ [] then some (d, inbuf, outbuf, false)
          else (flushtmpbuf { d with self := { d.self with state := .initial } } outbuf).map
              fun (d, outbuf, success) => (d, inbuf, outbuf, success)
        else some (d, inbuf, outbuf, true) := by
  have hroom : (filled limit []).free ≠ 0 := Nat.pos_iff_ne_zero.mp hpos
  rw [encode_called hcalled, limited, if_neg hroom]
  rfl

theorem drive_fits (p : Pieces) {input : Str} {limit : Nat} {flush : Bool}
    (hcalled : input ≠ [] ∨ flush = true) (hlt : (decoded {} input).2.length < limit) :
    ∃ fuel, drive (limited p) flush fuel {} ⟨[], input⟩ (filled limit []) =
      some ((decoded {} input).2 ++ if flush then tail (decoded {} input).1 else []) := by
  have hpos : 0 < limit := Nat.zero_lt_of_lt hlt
  obtain ⟨rest, hnil, hrun⟩ : ∃ rest : Queue, rest.content = [] ∧
      pieces p (input.length + 2) {} ⟨[], input⟩ (filled limit []) =
        some (⟨(decoded {} input).1, 0⟩, rest, filled limit ([] ++ (decoded {} input).2)) :=
    pieces_fits shaped_new (Nat.lt_add_of_pos_right (by omega)) ((Nat.zero_add _).trans_lt hlt)
  have hcall := encode_room p (input.length + 2) hcalled hpos
  rw [hrun, bind_some, nil_append] at hcall
  cases flush with
  | false => exact ⟨_, (drive_last hcall hnil nofun).trans (by simp [filled])⟩
  | true =>
    dsimp only at hcall
    rw [if_pos rfl, if_neg (not_not_intro hnil)] at hcall
    have htail := flush_tail (shaped_decoded shaped_new input) hlt
    rcases htail with hall | ⟨a, b, htail, hpart⟩
    · rw [hall] at hcall
      exact ⟨_, drive_last hcall hnil fun _ => rfl⟩
    · rw [hpart] at hcall
      refine ⟨input.length + 3, ?_⟩
      rw [drive_again hcall (fun h => nomatch h.2 rfl), if_pos rfl, htail,
        drive_second p hnil input.length b 1 (by omega) hpos, map_some]
      exact congrArg some (append_assoc _ [a] [b])

theorem drained (p : Pieces) (input : Str) (limit : Nat) (flush : Bool) :
    (∃ fuel, drive (limited p) flush fuel {} ⟨[], input⟩ (LimitedBuf.new limit) =
        some ((decoded {} input).2 ++ if flush then tail (decoded {} input).1 else [])) ↔
      input = [] ∨ (decoded {} input).2.length < limit := by
  have hnew : LimitedBuf.new limit = filled limit [] := rfl
  have hzero : ([] : Str).length + (decoded {} input).2.length = (decoded {} input).2.length :=
    Nat.zero_add _
  rw [hnew]
  constructor
  · rintro ⟨fuel, h⟩
    by_contra hnot
    obtain ⟨hne, hfull⟩ := not_or.mp hnot
    rcases Nat.eq_zero_or_pos limit with rfl | hpos
    · rw [drive_zero p hne] at h
      cases h
    · have hnone : ∀ fuel, encode (limited p) fuel {} ⟨[], input⟩ (filled limit []) flush = none := by
        intro fuel
        have hstops : pieces p fuel {} ⟨[], input⟩ (filled limit []) = none :=
          pieces_stops shaped_new hpos fuel ((Nat.not_lt.mp hfull).trans_eq hzero.symm)
        rw [encode_room p fuel (Or.inl hne) hpos, hstops]
        rfl
      rw [drive_none hnone] at h
      cases h
  · intro hfits
    by_cases hidle : input = [] ∧ flush = false
    · obtain ⟨rfl, rfl⟩ := hidle
      exact ⟨1, drive_last (encode_idle rfl) rfl nofun⟩
    have hcalled : input ≠ [] ∨ flush = true := by
      rw [not_and_or, Bool.not_eq_false] at hidle
      exact hidle
    rcases Nat.eq_zero_or_pos limit with rfl | hpos
    · obtain rfl : input = [] := hfits.resolve_right (Nat.not_lt_zero _)
      have hcall : encode (limited p) 0 {} ⟨[], []⟩ (filled 0 []) flush =
          some ({}, ⟨[], []⟩, filled 0 [], true) := encode_called hcalled
      have hresult : (decoded {} []).2 ++ (if flush then tail (decoded {} []).1 else []) = [] := by
        cases flush <;> rfl
      exact ⟨1, (drive_last hcall rfl fun _ => rfl).trans (congrArg some hresult.symm)⟩
    · apply drive_fits p hcalled
      rcases hfits with rfl | hlt
      · exact hpos
      · exact hlt

end LimitedDecoder

namespace Backslash

/-- Calls that take the output away give what a buffer without a limit gets, in this way: the
encoder has to have room for all it writes, since it never gives the rest of the input back; the
decoder must not fill the output while there is input, since it gives back a byte that it has
used. -/
theorem drained_iff (p : Pieces) (nasties input : Str) (limit : Nat) (flush : Bool) :
    ((∃ fuel, drive (WvBackslashEncoder.limited p) flush fuel ⟨nasties⟩ ⟨[], input⟩
          (LimitedBuf.new limit) =
        some ((WvBackslashEncoder.new nasties).encode WvBackslashEncoder.methods input flush
          false).2.1) ↔ (input.map (width nasties)).sum ≤ limit) ∧
      ((∃ fuel, drive (LimitedDecoder.limited p) flush fuel {} ⟨[], input⟩ (LimitedBuf.new limit) =
          some (WvBackslashDecoder.new.encode methods input flush false).2.1) ↔
        input = [] ∨ finished input < limit) := by
  constructor
  · rw [WvBackslashEncoder.encode_escaped, ← WvBackslashEncoder.escaped_length]
    exact WvBackslashEncoder.drained p nasties input limit flush
  · rw [LimitedDecoder.encode_decoded, ← LimitedDecoder.decoded_length]
    exact LimitedDecoder.drained p input limit flush

def onePiece : Pieces where
  optgettable := List.length
  pos _ h := List.length_pos_of_ne_nil h
  le _ := le_refl _

/-- `ab` with room for one byte: the encoder fails, and so does the decoder. -/
theorem drained_fails :
    (∀ fuel, drive (WvBackslashEncoder.limited onePiece) true fuel ⟨[]⟩ ⟨[], [97, 98]⟩
        (LimitedBuf.new 1) ≠
      some ((WvBackslashEncoder.new []).encode WvBackslashEncoder.methods [97, 98] true
        false).2.1) ∧ ∀ fuel, drive (LimitedDecoder.limited onePiece) true fuel {} ⟨[], [97, 98]⟩
          (LimitedBuf.new 1) ≠
        some (WvBackslashDecoder.new.encode methods [97, 98] true false).2.1 := by
  constructor
  · rw [WvBackslashEncoder.encode_escaped]
    intro fuel h
    have hfits := (WvBackslashEncoder.drained onePiece [] [97, 98] 1 true).mp ⟨fuel, h⟩
    exact absurd hfits (by decide)
  · rw [LimitedDecoder.encode_decoded]
    intro fuel h
    have hfits := (LimitedDecoder.drained onePiece [97, 98] 1 true).mp ⟨fuel, h⟩
    exact absurd hfits (by decide)

end Backslash

end WvStreams
