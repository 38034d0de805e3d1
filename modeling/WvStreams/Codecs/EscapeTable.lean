import WvStreams.Codecs.Backslash

/-!
# The table of escapes

`unescape` reads a text by the table of escapes, where it is a parameter how an octal escape is
read. However its input is cut, the decoder reads with one and the same parameter, which gives the
documented escapes their values (`decode_unescape`).
-/

namespace WvStreams

open Lib WvBackslashDecoder List WvBackslashDecoder

namespace Backslash

def octalValue (digits : Str) : Nat :=
  digits.foldl (fun value c => value * 8 + (fromoctal c).getD 0) 0

def hexByte (digits : Str) : Byte :=
  UInt8.ofNat (digits.foldl (fun value c => value * 16 + (fromhex c).getD 0) 0)

/-- The digits at the start of a text, `limit` at most. -/
def leading (digit : Byte → Option Nat) (limit : Nat) (text : Str) : Str :=
  (text.take limit).takeWhile fun c => (digit c).isSome

section Reader

-- the byte that an octal escape gives, and how many characters behind the backslash belong to it
variable (octal : Str → Byte × Nat)

/-- What stands for the text behind a backslash, and the text behind the escape. -/
def readEscape : Str → Str × Str
  | [] => ([92], [])
  | c :: text =>
    if 48 ≤ c ∧ c ≤ 51 then ([(octal (c :: text)).1], (c :: text).drop (octal (c :: text)).2)
    else if c = 120 then
      let digits := leading fromhex 2 text
      (if digits = [] then [92, 120] else [hexByte digits], text.drop digits.length)
    else if c = 10 then ([10], text)
    else ([if c ∈ escapeout then escapein.getD (escapeout.idxOf c) 0 else c], text)

theorem length_readEscape_le (text : Str) : (readEscape octal text).2.length ≤ text.length := by
  cases text with
  | nil => exact le_refl _
  | cons c text =>
    unfold readEscape
    dsimp only
    split_ifs <;> simp only [length_drop, length_cons] <;> omega

def unescape : Str → Str
  | [] => []
  | c :: text =>
    if c = 92 then (readEscape octal text).1 ++ unescape (readEscape octal text).2
    else c :: unescape text
termination_by text => text.length
decreasing_by
  · exact Nat.lt_succ_of_le (length_readEscape_le octal text)
  · exact Nat.lt_succ_self _

theorem unescape_nil : unescape octal [] = [] := by
  rw [unescape]

theorem unescape_plain {c : Byte} (h : c ≠ 92) (text : Str) :
    unescape octal (c :: text) = c :: unescape octal text := by
  rw [unescape, if_neg h]

theorem unescape_backslash (text : Str) :
    unescape octal (92 :: text) =
      (readEscape octal text).1 ++ unescape octal (readEscape octal text).2 := by
  rw [unescape, if_pos rfl]

end Reader

variable {c : Byte} {d : WvBackslashDecoder}

theorem leading_cons (digit : Byte → Option Nat) (limit : Nat) (c : Byte) (text : Str) :
    leading digit (limit + 1) (c :: text) =
      if (digit c).isSome then c :: leading digit limit text else [] := by
  rw [leading, take_succ_cons, takeWhile_cons]
  rfl

theorem leading_append {digit : Byte → Option Nat} {limit : Nat} {digits rest : Str}
    (hdigits : ∀ c ∈ digits, (digit c).isSome) (hle : digits.length ≤ limit)
    (hend : digits.length = limit ∨ ∀ c ∈ rest.head?, (digit c).isNone) :
    leading digit limit (digits ++ rest) = digits := by
  induction digits generalizing limit with
  | nil =>
    cases rest with
    | nil => simp [leading]
    | cons c rest =>
      cases limit with
      | zero => simp [leading]
      | succ limit =>
        rcases hend with hend | hend
        · cases hend
        · have hc : (digit c).isNone := hend c rfl
          rw [nil_append, leading_cons, if_neg]
          simpa using hc
  | cons c digits ih =>
    obtain ⟨hc, hdigits⟩ := forall_mem_cons.mp hdigits
    cases limit with
    | zero => cases hle
    | succ limit =>
      rw [cons_append, leading_cons, if_pos hc]
      congr 1
      apply ih hdigits (Nat.le_of_succ_le_succ hle)
      exact hend.imp_left Nat.succ.inj

/-- What a decoder writes for a text that is flushed at its end. -/
def written (d : WvBackslashDecoder) (text : Str) : Str :=
  let r := loop.run ⟨true, false, d⟩ text
  r.2 ++ (flushtmpbuf { r.1.self with state := .initial }).2

theorem written_nil (d : WvBackslashDecoder) :
    written d [] = d.tmpbuf ++ (d.value.map UInt8.ofNat).toList := rfl

theorem written_cons (d : WvBackslashDecoder) (c : Byte) (text : Str) :
    written d (c :: text) = (d.step c).2 ++ written (d.step c).1 text := by
  rw [written, loop_run, written, append_assoc]

theorem written_again (h : d.scan c = ({ d with state := .initial }, false)) (text : Str) :
    written d (c :: text) =
      d.tmpbuf ++ (d.value.map UInt8.ofNat).toList ++ written {} (c :: text) := by
  have hstep : d.step c = ((step {} c).1,
      d.tmpbuf ++ (d.value.map UInt8.ofNat).toList ++ (step {} c).2) := by
    rw [step, h]
    rfl
  rw [written_cons, hstep, written_cons, append_assoc]

/-- The state in which so many octal digits may still come. -/
def octalState : Nat → BackslashState
  | 3 => .octal1
  | 2 => .octal2
  | 1 => .octal3
  | _ => .initial

theorem scan_octal {n : Nat} (hn : n < 3) (value : Nat) (c : Byte) :
    scan ⟨octalState (n + 1), [], some value⟩ c =
      match fromoctal c with
      | some digit => (⟨octalState n, [], some (value <<< 3 ||| digit)⟩, true)
      | none => (⟨.initial, [], some value⟩, false) := by
  match n, hn with
  | 0, _ => cases h : fromoctal c <;> simp [scan, octalState, scan.octal, h]
  | 1, _ => cases h : fromoctal c <;> simp [scan, octalState, scan.octal, h]
  | 2, _ => cases h : fromoctal c <;> simp [scan, octalState, scan.octal, h]

theorem fromoctal_lt {digit : Nat} (h : fromoctal c = some digit) : digit < 8 := by
  unfold fromoctal at h
  split at h
  · rename_i hc
    cases h
    have hle : c.toNat ≤ 55 := hc.2
    omega
  · cases h

theorem fromhex_lt {digit : Nat} (h : fromhex c = some digit) : digit < 16 := by
  unfold fromhex at h
  split_ifs at h with hnum hupper hlower
  · cases h
    have hle : c.toNat ≤ 57 := hnum.2
    omega
  · cases h
    have hle : c.toNat ≤ 70 := hupper.2
    omega
  · cases h
    have hle : c.toNat ≤ 102 := hlower.2
    omega

theorem written_inside {d' : WvBackslashDecoder} (h : d.scan c = (d', true))
    (hstate : d'.state ≠ .initial) (text : Str) : written d (c :: text) = written d' text := by
  have hstep : d.step c = (d', []) := by
    rw [step, h]
    dsimp only
    rw [if_pos rfl, flushtmpbuf, if_pos hstate]
  rw [written_cons, hstep, nil_append]

theorem written_last {d' : WvBackslashDecoder} (h : d.scan c = (d', true))
    (hstate : d'.state = .initial) (text : Str) :
    written d (c :: text) = d'.tmpbuf ++ (d'.value.map UInt8.ofNat).toList ++ written {} text := by
  have hstep : d.step c = ({}, d'.tmpbuf ++ (d'.value.map UInt8.ofNat).toList) := by
    rw [step, h]
    dsimp only
    rw [if_pos rfl, flushtmpbuf, if_neg (not_not_intro hstate)]
  rw [written_cons, hstep]

theorem octalState_ne {n : Nat} (hn : n < 3) : octalState (n + 1) ≠ .initial := by
  match n, hn with
  | 0, _ => decide
  | 1, _ => decide
  | 2, _ => decide

theorem written_octal {n : Nat} (hn : n < 3) (value : Nat) (text : Str) :
    let digits := leading fromoctal (n + 1) text
    written ⟨octalState (n + 1), [], some value⟩ text =
      UInt8.ofNat (digits.foldl (fun value c => value * 8 + (fromoctal c).getD 0) value) ::
        written {} (text.drop digits.length) := by
  induction text generalizing n value with
  | nil => cases n <;> rfl
  | cons c text ih =>
    have hscan := scan_octal hn value c
    rw [leading_cons]
    cases hc : fromoctal c with
    | none =>
      rw [hc] at hscan
      rw [written_again hscan]
      rfl
    | some digit =>
      rw [hc] at hscan
      have hvalue : value <<< 3 ||| digit = value * 8 + digit :=
        shift_or (k := 3) value (fromoctal_lt hc)
      cases n with
      | zero =>
        rw [written_last hscan rfl]
        simp [leading, hc, hvalue]
      | succ n =>
        rw [written_inside hscan (octalState_ne (by omega)), ih (by omega)]
        simp [hc, hvalue]

theorem written_hex (text : Str) :
    let digits := leading fromhex 2 text
    written ⟨.hex1, [92, 120], none⟩ text =
      (if digits = [] then [92, 120] else [hexByte digits]) ++
        written {} (text.drop digits.length) := by
  cases text with
  | nil => rfl
  | cons c text =>
    rw [leading_cons]
    cases hc : fromhex c with
    | none =>
      have hscan : scan ⟨.hex1, [92, 120], none⟩ c =
          (⟨.initial, [92, 120], none⟩, false) := by
        simp only [scan, hc]
      rw [written_again hscan]
      rfl
    | some digit =>
      have hscan : scan ⟨.hex1, [92, 120], none⟩ c =
          (⟨.hex2, [], some digit⟩, true) := by
        simp only [scan, hc]
        rfl
      rw [written_inside hscan (by simp)]
      cases text with
      | nil => simp [leading, written_nil, hexByte, hc]
      | cons c' text =>
        rw [Option.isSome_some, if_pos rfl, leading_cons]
        cases hc' : fromhex c' with
        | none =>
          have hscan' : scan ⟨.hex2, [], some digit⟩ c' =
              (⟨.initial, [], some digit⟩, false) := by
            simp only [scan, hc']
          rw [written_again hscan']
          simp [hexByte, hc]
        | some digit' =>
          have hvalue : digit <<< 4 ||| digit' = digit * 16 + digit' :=
            shift_or (k := 4) digit (fromhex_lt hc')
          have hscan' : scan ⟨.hex2, [], some digit⟩ c' =
              (⟨.initial, [], some (digit * 16 + digit')⟩, true) := by
            simp only [scan, hc', Option.map_some, hvalue]
          rw [written_last hscan' rfl]
          simp [leading, hexByte, hc, hc']

/-- How the decoder reads an octal escape: up to four digits, of whose value it keeps the low eight
bits. -/
def fourDigits (text : Str) : Byte × Nat :=
  (UInt8.ofNat (octalValue (leading fromoctal 4 text)), (leading fromoctal 4 text).length)

theorem written_escape (text : Str) :
    written ⟨.escape, [92], none⟩ text =
      (readEscape fourDigits text).1 ++ written {} (readEscape fourDigits text).2 := by
  cases text with
  | nil => rfl
  | cons c text =>
    unfold readEscape
    dsimp only
    split
    · rename_i hoctal
      have hscan : scan ⟨.escape, [92], none⟩ c =
          (⟨octalState 3, [], some (c.toNat - 48)⟩, true) := by
        simp only [scan, if_pos hoctal]
        rfl
      have hdigit : fromoctal c = some (c.toNat - 48) := by
        rw [fromoctal, if_pos ⟨hoctal.1, UInt8.le_trans hoctal.2 (by decide)⟩]
      have hleading : leading fromoctal 4 (c :: text) = c :: leading fromoctal 3 text := by
        rw [leading_cons, if_pos (by rw [hdigit]; rfl)]
      rw [written_inside hscan (octalState_ne (n := 2) (by omega)), written_octal (by omega),
        fourDigits, hleading]
      simp [octalValue, hdigit]
    · rename_i hoctal
      split
      · rename_i hhex
        have hscan : scan ⟨.escape, [92], none⟩ c =
            (⟨.hex1, [92, 120], none⟩, true) := by
          rw [hhex]
          rfl
        rw [written_inside hscan (by decide), written_hex]
      · rename_i hhex
        split
        · rename_i hline
          have hscan : scan ⟨.escape, [92], none⟩ c =
              (⟨.initial, [10], none⟩, true) := by
            rw [hline]
            rfl
          rw [written_last hscan rfl]
          rfl
        · rename_i hline
          have hscan : scan ⟨.escape, [92], none⟩ c =
              (⟨.initial, [if c ∈ escapeout then escapein.getD (escapeout.idxOf c) 0 else c],
                none⟩, true) := by
            simp only [scan, if_neg hoctal, if_neg hhex, if_neg hline]
            rfl
          rw [written_last hscan rfl]
          rfl

theorem written_eq (text : Str) : written {} text = unescape fourDigits text := by
  induction hn : text.length using Nat.strong_induction_on generalizing text with
  | _ n ih =>
    subst hn
    cases text with
    | nil => rw [unescape_nil]; rfl
    | cons c text =>
      by_cases hc : c = 92
      · subst hc
        have hle := length_readEscape_le fourDigits text
        have hscan : scan {} 92 = (⟨.escape, [92], none⟩, true) := rfl
        rw [written_inside hscan (by decide), written_escape, unescape_backslash,
          ih _ (Nat.lt_succ_of_le hle) _ rfl]
      · have hscan : scan {} c = (⟨.initial, [c], none⟩, true) := by
          simp [scan, hc]
        rw [written_last hscan rfl, unescape_plain _ hc, ih _ (Nat.lt_succ_self _) _ rfl]
        rfl

theorem flushChunks_written (chunks : List Str) (last : Str) :
    (new.flushChunks methods chunks last).2 =
      (written {} (chunks.flatten ++ last), true) := by
  have hnew : Between new := ⟨rfl, fun _ => ⟨rfl, rfl⟩⟩
  have hmid : Between (loop.run new chunks.flatten).1 :=
    Transducer.run_induct between_step hnew chunks.flatten
  have hrun : loop.run ⟨true, false, {}⟩ (chunks.flatten ++ last) = _ :=
    Transducer.run_append _ new chunks.flatten last
  rw [WvEncoder.flushChunks, decodeChunks_flatten, written, hrun]
  obtain ⟨hlive, hsettled⟩ := hmid
  simp only [WvEncoder.encode, hlive, Bool.or_true, Bool.and_true, if_true, Bool.false_eq_true,
    if_false, methods, _encode, flushtmpbuf_of_settled hsettled, nil_append, append_assoc]

/-- An octal escape of the table: `0xyz`, or a first digit up to 3 and two more at most, in front of
another character. -/
structure OctalEscape (digits rest : Str) : Prop where
  first : ∃ c ∈ digits.head?, 48 ≤ c ∧ c ≤ 51
  octal : ∀ c ∈ digits, (fromoctal c).isSome
  value_lt : octalValue digits < 256
  ends : (digits.length = 4 ∧ digits.head? = some 48) ∨
    digits.length ≤ 3 ∧ ∀ c ∈ rest.head?, (fromoctal c).isNone

theorem unescape_octal {digits rest : Str} (h : OctalEscape digits rest) :
    unescape fourDigits (92 :: (digits ++ rest)) =
      UInt8.ofNat (octalValue digits) :: unescape fourDigits rest := by
  obtain ⟨first, hfirst, hrange⟩ := h.first
  cases digits with
  | nil => cases hfirst
  | cons c digits =>
    obtain rfl := Option.some.inj hfirst
    have hleading : leading fromoctal 4 (c :: digits ++ rest) = c :: digits := by
      apply leading_append h.octal
      · rcases h.ends with ⟨hlen, -⟩ | ⟨hlen, -⟩ <;> omega
      · exact h.ends.imp And.left And.right
    rw [unescape_backslash, cons_append, readEscape, if_pos hrange, ← cons_append, fourDigits,
      hleading]
    dsimp only
    rw [drop_left]
    rfl

/-- However a text is cut, it is decoded by the table: with one reading of the octal escapes, in
which those of the table give the byte with their value, and what comes behind is read from the
start. -/
theorem decode_unescape : ∃ octal,
    (∀ chunks last, (WvBackslashDecoder.new.flushChunks methods chunks last).2 =
      (unescape octal (chunks.flatten ++ last), true)) ∧
    ∀ digits rest, OctalEscape digits rest → ∃ byte : Byte, byte.toNat = octalValue digits ∧
      unescape octal (92 :: (digits ++ rest)) = byte :: unescape octal rest := by
  refine ⟨fourDigits, fun chunks last => ?_, fun digits rest h => ?_⟩
  · rw [flushChunks_written, written_eq]
  · exact ⟨_, UInt8.toNat_ofNat_of_lt' h.value_lt, unescape_octal h⟩

/-- A backslash and `123`, which an `x` follows, and `\0101` and a `1`, in three parts. -/
theorem decode_unescape_two :
    (WvBackslashDecoder.new.flushChunks methods [[92, 49], [50, 51, 120, 92, 48]]
      [49, 48, 49, 49]).2 = ([83, 120, 65, 49], true) := by
  obtain ⟨octal, hdecode, hescape⟩ := decode_unescape
  obtain ⟨byte, hbyte, hread⟩ := hescape [49, 50, 51] [120, 92, 48, 49, 48, 49, 49]
    ⟨⟨49, rfl, by decide⟩, by decide, by decide, Or.inr (by decide)⟩
  obtain ⟨byte', hbyte', hread'⟩ := hescape [48, 49, 48, 49] [49]
    ⟨⟨48, rfl, by decide⟩, by decide, by decide, Or.inl (by decide)⟩
  obtain rfl : byte = 83 := UInt8.toNat_inj.mp hbyte
  obtain rfl : byte' = 65 := UInt8.toNat_inj.mp hbyte'
  have hrest : unescape octal [120, 92, 48, 49, 48, 49, 49] = [120, 65, 49] := by
    rw [unescape_plain octal (by decide)]
    refine congrArg (120 :: ·) (hread'.trans ?_)
    rw [unescape_plain octal (by decide), unescape_nil]
  rw [hdecode]
  exact congrArg (·, true) (hread.trans (congrArg (83 :: ·) hrest))

/-- Of the digits `0123` all four are read: three of them are not an escape in front of a `3`. -/
theorem decode_three_fails : ¬ ∀ digits rest : Str,
    digits.length ≤ 3 → (∃ c ∈ digits.head?, 48 ≤ c ∧ c ≤ 51) → (∀ c ∈ digits, (fromoctal c).isSome) →
    (digits.length = 3 ∨ ∀ c ∈ rest.head?, (fromoctal c).isNone) →
    (WvBackslashDecoder.new.flushChunks methods [] (92 :: (digits ++ rest))).2.1 =
      UInt8.ofNat (octalValue digits) ::
        (WvBackslashDecoder.new.flushChunks methods [] rest).2.1 := by
  intro h
  exact absurd (h [48, 49, 50] [51] (by decide) ⟨48, rfl, by decide⟩ (by decide) (by decide))
    (by decide)

end Backslash

end WvStreams
