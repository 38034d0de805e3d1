import WvStreams.Codecs.Encoder

/-!
# Backslash escapes

The encoder writes each byte in a form of its own, and the decoder is back in its initial state
behind each form (`decode_escape`), so that it gives back the bytes however the text is cut
(`decode_escaped`). The output buffers have room for everything.
-/

namespace WvStreams

open Lib

namespace Backslash

def escapein : Str := [7, 8, 12, 10, 13, 9, 11]

def escapeout : Str := [97, 98, 102, 110, 114, 116, 118]

def tohex (digit : Nat) : Byte := UInt8.ofNat ((if digit < 10 then 48 else 97 - 10) + digit)

def fromhex (digit : Byte) : Option Nat :=
  if 48 ≤ digit ∧ digit ≤ 57 then some (digit.toNat - 48)
  else if 65 ≤ digit ∧ digit ≤ 70 then some (digit.toNat - 65 + 10)
  else if 97 ≤ digit ∧ digit ≤ 102 then some (digit.toNat - 97 + 10)
  else none

def fromoctal (digit : Byte) : Option Nat :=
  if 48 ≤ digit ∧ digit ≤ 55 then some (digit.toNat - 48) else none

/-- `isprint` in the C locale. -/
def isprint (c : Byte) : Bool := 32 ≤ c && c ≤ 126

end Backslash

open Backslash

structure WvBackslashEncoder where
  nasties : Str

namespace WvBackslashEncoder

def hex (c : Byte) : Str := [92, 120, tohex (c.toNat >>> 4), tohex (c.toNat &&& 15)]

def escape (nasties : Str) (c : Byte) : Str :=
  if c = 0 then hex c
  else if c ∈ nasties then [92, c]
  else if c ∈ escapein then [92, escapeout.getD (escapein.idxOf c) 0]
  else if isprint c then [c]
  else hex c

def loop : Transducer (WvEncoder WvBackslashEncoder) Byte Byte :=
  ⟨fun e c => (e, escape e.self.nasties c)⟩

def _encode (e : WvEncoder WvBackslashEncoder) (inbuf : Str) (_flush : Bool) :
    WvEncoder WvBackslashEncoder × Str × Bool :=
  let (e, out) := loop.run e inbuf
  (e, out, true)

def methods : WvEncoder.Methods WvBackslashEncoder := { _encode := _encode }

def new (nasties : Str) : WvEncoder WvBackslashEncoder := ⟨true, false, ⟨nasties⟩⟩

end WvBackslashEncoder

inductive BackslashState where
  | initial
  | escape
  | hex1
  | hex2
  | octal1
  | octal2
  | octal3
  deriving DecidableEq

/-- The `value` -1 is `none`. -/
structure WvBackslashDecoder where
  state : BackslashState := .initial
  tmpbuf : Str := []
  value : Option Nat := none
  deriving DecidableEq

namespace WvBackslashDecoder

/-- In the initial state all is written. -/
def flushtmpbuf (d : WvBackslashDecoder) : WvBackslashDecoder × Str :=
  if d.state ≠ .initial then (d, [])
  else ({}, d.tmpbuf ++ (d.value.map UInt8.ofNat).toList)

/-- The `switch` over the state, and whether it has used the byte: if not it is looked at once
more, in the initial state. -/
def scan (d : WvBackslashDecoder) (c : Byte) : WvBackslashDecoder × Bool :=
  match d.state with
  | .initial =>
    ({ d with state := if c = 92 then .escape else .initial, tmpbuf := d.tmpbuf ++ [c] }, true)
  | .escape =>
    if 48 ≤ c ∧ c ≤ 51 then (⟨.octal1, d.tmpbuf.dropLast, some (c.toNat - 48)⟩, true)
    else if c = 120 then (⟨.hex1, d.tmpbuf ++ [c], d.value⟩, true)
    else if c = 10 then (⟨.initial, d.tmpbuf.dropLast ++ [10], d.value⟩, true)
    else
      let c := if c ∈ escapeout then escapein.getD (escapeout.idxOf c) 0 else c
      (⟨.initial, d.tmpbuf.dropLast ++ [c], d.value⟩, true)
  | .hex1 =>
    match fromhex c with
    | some digit => (⟨.hex2, d.tmpbuf.dropLast.dropLast, some digit⟩, true)
    | none => ({ d with state := .initial }, false)
  | .hex2 =>
    match fromhex c with
    | some digit => (⟨.initial, d.tmpbuf, d.value.map fun value => value <<< 4 ||| digit⟩, true)
    | none => ({ d with state := .initial }, false)
  | .octal1 => octal .octal2
  | .octal2 => octal .octal3
  | .octal3 => octal .initial
where
  octal (next : BackslashState) : WvBackslashDecoder × Bool :=
    match fromoctal c with
    | some digit => (⟨next, d.tmpbuf, d.value.map fun value => value <<< 3 ||| digit⟩, true)
    | none => ({ d with state := .initial }, false)

/-- The loop at one byte. -/
def step (d : WvBackslashDecoder) (c : Byte) : WvBackslashDecoder × Str :=
  let (d, used) := d.scan c
  let (d, out) := d.flushtmpbuf
  if used then (d, out)
  else
    let (d, more) := (d.scan c).1.flushtmpbuf
    (d, out ++ more)

def loop : Transducer (WvEncoder WvBackslashDecoder) Byte Byte :=
  ⟨fun e c => ({ e with self := (e.self.step c).1 }, (e.self.step c).2)⟩

def _encode (e : WvEncoder WvBackslashDecoder) (inbuf : Str) (flush : Bool) :
    WvEncoder WvBackslashDecoder × Str × Bool :=
  let (d, first) := e.self.flushtmpbuf
  let (e, out) := loop.run { e with self := d } inbuf
  if flush then
    let (d, last) := { e.self with state := .initial }.flushtmpbuf
    ({ e with self := d }, first ++ out ++ last, true)
  else (e, first ++ out, true)

def methods : WvEncoder.Methods WvBackslashDecoder := { _encode := _encode }

def new : WvEncoder WvBackslashDecoder := ⟨true, false, {}⟩

end WvBackslashDecoder

namespace Backslash

/-- The decoder keeps nothing back in its initial state. -/
def Settled (d : WvBackslashDecoder) : Prop :=
  d.state = .initial → d.tmpbuf = [] ∧ d.value = none

open WvBackslashDecoder

theorem flushtmpbuf_settled (d : WvBackslashDecoder) : Settled d.flushtmpbuf.1 := by
  rw [flushtmpbuf]
  split
  · intro hinitial
    contradiction
  · exact fun _ => ⟨rfl, rfl⟩

theorem flushtmpbuf_of_settled {d : WvBackslashDecoder} (h : Settled d) :
    d.flushtmpbuf = (d, []) := by
  rw [flushtmpbuf]
  split
  · rfl
  · rename_i hinitial
    rw [Decidable.not_not] at hinitial
    obtain ⟨htmpbuf, hvalue⟩ := h hinitial
    obtain ⟨state, tmpbuf, value⟩ := d
    subst hinitial htmpbuf hvalue
    rfl

theorem settled_step (e : WvEncoder WvBackslashDecoder) (c : Byte) (_ : Settled e.self) :
    Settled (loop.step e c).1.self := by
  show Settled (e.self.step c).1
  rw [step]
  dsimp only
  split
  · exact flushtmpbuf_settled _
  · exact flushtmpbuf_settled _

theorem fromhex_tohex {digit : Nat} (h : digit < 16) : fromhex (tohex digit) = some digit := by
  have hall : ∀ digit : Fin 16, fromhex (tohex digit) = some digit.val := by decide
  exact hall ⟨digit, h⟩

theorem escapein_escapeout {c : Byte} (h : c ∈ escapein) :
    escapeout.getD (escapein.idxOf c) 0 ∈ escapeout ∧
      escapein.getD (escapeout.idxOf (escapeout.getD (escapein.idxOf c) 0)) 0 = c := by
  have hall : ∀ c ∈ escapein, escapeout.getD (escapein.idxOf c) 0 ∈ escapeout ∧
      escapein.getD (escapeout.idxOf (escapeout.getD (escapein.idxOf c) 0)) 0 = c := by decide
  exact hall c h

theorem step_plain {c : Byte} (h : c ≠ 92) : step {} c = ({}, [c]) := by
  simp [step, scan, flushtmpbuf, h]

theorem step_backslash : step {} 92 = (⟨.escape, [92], none⟩, []) := by decide

theorem step_letter {c : Byte} (hoctal : ¬ (48 ≤ c ∧ c ≤ 51)) (hhex : c ≠ 120) (hline : c ≠ 10) :
    step ⟨.escape, [92], none⟩ c =
      ({}, [if c ∈ escapeout then escapein.getD (escapeout.idxOf c) 0 else c]) := by
  simp only [step, scan, if_neg hoctal, if_neg hhex, if_neg hline]
  rfl

theorem step_hex : step ⟨.escape, [92], none⟩ 120 =
    (⟨.hex1, [92, 120], none⟩, []) := by decide

theorem step_hex1 {digit : Nat} (h : digit < 16) :
    step ⟨.hex1, [92, 120], none⟩ (tohex digit) =
      (⟨.hex2, [], some digit⟩, []) := by
  simp only [step, scan, fromhex_tohex h]
  rfl

theorem step_hex2 (high : Nat) {digit : Nat} (h : digit < 16) :
    step ⟨.hex2, [], some high⟩ (tohex digit) =
      ({}, [UInt8.ofNat (high * 16 + digit)]) := by
  have hvalue : high <<< 4 ||| digit = high * 16 + digit := shift_or (k := 4) high h
  simp only [step, scan, fromhex_tohex h, Option.map_some, hvalue]
  rfl

theorem loop_run (d : WvBackslashDecoder) (c : Byte) (s : Str) :
    loop.run ⟨true, false, d⟩ (c :: s) =
      ((loop.run ⟨true, false, (d.step c).1⟩ s).1,
        (d.step c).2 ++ (loop.run ⟨true, false, (d.step c).1⟩ s).2) := rfl

theorem decode_hex (c : Byte) :
    loop.run new (WvBackslashEncoder.hex c) =
      (new, [c]) := by
  have hc := c.toNat_lt
  have hhigh : c.toNat >>> 4 = c.toNat / 16 := Nat.shiftRight_eq_div_pow _ 4
  have hlow : c.toNat &&& 15 = c.toNat % 16 := and_low c.toNat 4
  have hbyte : c.toNat / 16 * 16 + c.toNat % 16 = c.toNat := Nat.div_add_mod' _ _
  rw [WvBackslashEncoder.hex, hhigh, hlow, new, loop_run, step_backslash, loop_run, step_hex,
    loop_run, step_hex1 (by omega), loop_run, step_hex2 _ (by omega), hbyte, UInt8.ofNat_toNat]
  rfl

/-- The nasties that the encoder is made for: a backslash in front of one is not the start of
another escape. -/
structure Safe (nasties : Str) : Prop where
  backslash : 92 ∈ nasties
  letters : ∀ c ∈ nasties, c ∉ escapeout ∧ c ≠ 120
  digits : ∀ c ∈ nasties, ¬ (48 ≤ c ∧ c ≤ 51)
  newline : ∀ c ∈ nasties, c ≠ 10

theorem decode_escape {nasties : Str} (h : Safe nasties) (c : Byte) :
    loop.run new (WvBackslashEncoder.escape nasties c) =
      (new, [c]) := by
  rw [WvBackslashEncoder.escape]
  split
  · exact decode_hex c
  · split
    · rename_i hnasty
      obtain ⟨hletter, hhex⟩ := h.letters c hnasty
      rw [new, loop_run, step_backslash, loop_run,
        step_letter (h.digits c hnasty) hhex (h.newline c hnasty), if_neg hletter]
      rfl
    · rename_i hnasty
      split
      · rename_i hspecial
        obtain ⟨hletter, hback⟩ := escapein_escapeout hspecial
        have hplain : ∀ c ∈ escapeout, ¬ (48 ≤ c ∧ c ≤ 51) ∧ c ≠ 120 ∧ c ≠ 10 := by decide
        obtain ⟨hoctal, hhex, hline⟩ := hplain _ hletter
        rw [new, loop_run, step_backslash, loop_run,
          step_letter hoctal hhex hline, if_pos hletter, hback]
        rfl
      · split
        · have hc : c ≠ 92 := fun heq => hnasty (heq ▸ h.backslash)
          rw [new, loop_run, step_plain hc]
          rfl
        · exact decode_hex c

theorem encodeChunks_flatten (nasties : Str) (chunks : List Str) :
    (WvBackslashEncoder.new nasties).encodeChunks WvBackslashEncoder.methods chunks =
      WvBackslashEncoder.loop.run (WvBackslashEncoder.new nasties) chunks.flatten := by
  have hlive : ∀ (e : WvEncoder WvBackslashEncoder) (a : Byte), e.live = true →
      (WvBackslashEncoder.loop.step e a).1.live = true := fun _ _ h => h
  rw [WvEncoder.encodeChunks_eq_feed (t := WvBackslashEncoder.loop) hlive (fun _ _ _ => rfl) rfl]
  exact Transducer.feed_live hlive (fun _ h => h) rfl chunks

def Between (e : WvEncoder WvBackslashDecoder) : Prop := e.live = true ∧ Settled e.self

theorem between_step (e : WvEncoder WvBackslashDecoder) (c : Byte) (h : Between e) :
    Between (loop.step e c).1 :=
  ⟨h.1, settled_step e c h.2⟩

theorem decodeChunks_flatten (text : List Str) :
    new.encodeChunks methods text =
      loop.run new text.flatten := by
  have hnew : Between new := ⟨rfl, fun _ => ⟨rfl, rfl⟩⟩
  have hencode : ∀ e s, Between e → ((methods._encode e s false).1,
        (methods._encode e s false).2.1) = loop.run e s := by
    intro e s he
    simp only [methods, _encode, flushtmpbuf_of_settled he.2]
    rfl
  rw [WvEncoder.encodeChunks_eq_feed between_step hencode hnew]
  exact Transducer.feed_live between_step (fun _ h => h.1) hnew text

/-- The decoder is behind all that the encoder has written. -/
def Tracks (nasties : Str) (s : WvEncoder WvBackslashEncoder) (t : WvEncoder WvBackslashDecoder)
    (pend : Str) : Prop :=
  s = WvBackslashEncoder.new nasties ∧ t = WvBackslashDecoder.new ∧ pend = []

theorem tracks_step {nasties : Str} (h : Safe nasties) (s : WvEncoder WvBackslashEncoder)
    (t : WvEncoder WvBackslashDecoder) (pend : Str) (a : Byte) (hR : Tracks nasties s t pend) :
    ∃ pend', Tracks nasties (WvBackslashEncoder.loop.step s a).1
        (loop.run t (WvBackslashEncoder.loop.step s a).2).1 pend' ∧ pend ++ [a] =
        (loop.run t (WvBackslashEncoder.loop.step s a).2).2 ++ pend' := by
  obtain ⟨rfl, rfl, rfl⟩ := hR
  have hrun : loop.run new
      (WvBackslashEncoder.loop.step (WvBackslashEncoder.new nasties) a).2 =
        (new, [a]) := decode_escape h a
  rw [hrun]
  exact ⟨[], ⟨rfl, rfl, rfl⟩, rfl⟩

/-- Neither the text that the encoder writes nor what the decoder makes of any text depends on
how the input is cut, and of a text of the encoder the decoder makes the data. -/
theorem decode_escaped {nasties : Str} (h : Safe nasties) (chunks : List Str) :
    let text := ((WvBackslashEncoder.new nasties).encodeChunks WvBackslashEncoder.methods chunks).2
    let decoded := fun cut =>
      (new.encodeChunks methods cut).2
    text = ((WvBackslashEncoder.new nasties).encodeChunks WvBackslashEncoder.methods
        [chunks.flatten]).2 ∧ (∀ cut, decoded cut = decoded [cut.flatten]) ∧
      ∀ cut, cut.flatten = text → decoded cut = chunks.flatten := by
  intro text decoded
  have hone : ∀ cut : List Str, [cut.flatten].flatten = cut.flatten := by simp
  refine ⟨?_, ?_, ?_⟩
  · rw [encodeChunks_flatten, hone]
    exact congrArg Prod.snd (encodeChunks_flatten nasties chunks)
  · intro cut
    simp only [decoded, decodeChunks_flatten, hone]
  · intro cut hcut
    have hstart : Tracks nasties (WvBackslashEncoder.new nasties) new [] :=
      ⟨rfl, rfl, rfl⟩
    obtain ⟨pend, ⟨_, _, rfl⟩, hout⟩ :=
      Transducer.decodes (tracks_step h) hstart chunks.flatten
    have htext : text = _ := congrArg Prod.snd (encodeChunks_flatten nasties chunks)
    simp only [decoded, decodeChunks_flatten, hcut, htext]
    simpa using hout.symm

/-- A backslash, a newline and a byte 200 in two chunks, whose text is cut inside of an escape. -/
theorem decode_escaped_cut :
    (WvBackslashDecoder.new.encodeChunks WvBackslashDecoder.methods
        [[92, 92, 92], [110, 92, 120], [99, 56]]).2 = [92, 10, 200] :=
  (decode_escaped (show Safe [92, 34] from ⟨by decide, by decide, by decide, by decide⟩)
    [[92], [10, 200]]).2.2
    [[92, 92, 92], [110, 92, 120], [99, 56]] (by decide +kernel)

end Backslash

end WvStreams
