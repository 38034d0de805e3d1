import WvStreams.Codecs.Encoder
import WvStreams.Strings.CNumber

/-!
# Hex

Two digits stand for a byte. The decoder passes over blanks, also between the two digits of a byte
(`run_spaced`), and it is told by its state and its flag `okay` whether it has met an odd number of
digits or a character that is not allowed (`run_okay`, `run_issecond`).
-/

namespace WvStreams

open Lib WvEncoder List

namespace Hex

def tohex (digit : Nat) (alphabase : Byte) : Byte :=
  (if digit < 10 then 48 else alphabase) + UInt8.ofNat digit

def isupper (c : Byte) : Bool := 65 ≤ c && c ≤ 90

def fromhex (digit : Byte) : Nat :=
  if isdigit digit then digit.toNat - 48
  else if isupper digit then digit.toNat - 65 + 10
  else digit.toNat - 97 + 10

end Hex

open Hex

structure WvHexEncoder where
  alphabase : Byte

namespace WvHexEncoder

def new (use_uppercase : Bool) : WvEncoder WvHexEncoder :=
  ⟨true, false, ⟨(if use_uppercase then 65 else 97) - 10⟩⟩

def step (e : WvEncoder WvHexEncoder) (byte : Byte) : WvEncoder WvHexEncoder × Str :=
  (e, [tohex (byte.toNat >>> 4) e.self.alphabase, tohex (byte.toNat &&& 15) e.self.alphabase])

def loop : Transducer (WvEncoder WvHexEncoder) Byte Byte := ⟨step⟩

def _encode (e : WvEncoder WvHexEncoder) (inbuf : Str) (_flush : Bool) :
    WvEncoder WvHexEncoder × Str × Bool :=
  let (e, out) := loop.run e inbuf
  (e, out, true)

def methods : WvEncoder.Methods WvHexEncoder := { _encode := _encode }

end WvHexEncoder

structure WvHexDecoder where
  issecond : Bool := false
  first : Nat := 0

namespace WvHexDecoder

def step (e : WvEncoder WvHexDecoder) (ch : Byte) : WvEncoder WvHexDecoder × Str :=
  if e.okay then
    if isxdigit ch then
      let digit := fromhex ch
      if e.self.issecond then
        ({ e with self := { e.self with issecond := false } },
          [UInt8.ofNat (e.self.first <<< 4 ||| digit)])
      else ({ e with self := ⟨true, digit⟩ }, [])
    else if isspace ch then (e, [])
    else (e.setnotok, [])
  else (e, [])

def loop : Transducer (WvEncoder WvHexDecoder) Byte Byte := ⟨step⟩

def _encode (e : WvEncoder WvHexDecoder) (inbuf : Str) (flush : Bool) :
    WvEncoder WvHexDecoder × Str × Bool :=
  let (e, out) := loop.run e inbuf
  -- not enough hex digits supplied
  (e, out, e.okay && !(flush && e.self.issecond))

def methods : WvEncoder.Methods WvHexDecoder := { _encode := _encode }

def new : WvEncoder WvHexDecoder := ⟨true, false, {}⟩

end WvHexDecoder

namespace Hex

theorem isxdigit_tohex (uppercase : Bool) {digit : Nat} (h : digit < 16) :
    let c := tohex digit (WvHexEncoder.new uppercase).self.alphabase
    isxdigit c = true ∧ fromhex c = digit := by
  have hall : ∀ uppercase : Bool, ∀ digit : Fin 16,
      let c := tohex digit (WvHexEncoder.new uppercase).self.alphabase
      isxdigit c = true ∧ fromhex c = digit := by decide
  exact hall uppercase ⟨digit, h⟩

variable {e : WvEncoder WvHexDecoder}

open WvHexDecoder

theorem decode_byte (uppercase : Bool) (hokay : e.okay = true) (hsecond : e.self.issecond = false)
    (byte : Byte) :
    loop.run e (WvHexEncoder.loop.step (WvHexEncoder.new uppercase) byte).2 =
      ({ e with self := ⟨false, byte.toNat / 16⟩ }, [byte]) := by
  have hbyte := byte.toNat_lt
  have hhigh : byte.toNat >>> 4 = byte.toNat / 16 := Nat.shiftRight_eq_div_pow _ 4
  have hlow : byte.toNat &&& 15 = byte.toNat % 16 := and_low byte.toNat 4
  obtain ⟨hdigit, hvalue⟩ :=
    isxdigit_tohex uppercase (show byte.toNat / 16 < 16 by omega)
  obtain ⟨hdigit', hvalue'⟩ :=
    isxdigit_tohex uppercase (show byte.toNat % 16 < 16 by omega)
  have hsum : (byte.toNat / 16) <<< 4 ||| byte.toNat % 16 = byte.toNat := by
    rw [shift_or (k := 4) _ (by omega)]
    exact Nat.div_add_mod' _ _
  obtain ⟨okay, finished, issecond, first⟩ := e
  cases hokay
  cases hsecond
  have hfirst : loop.step ⟨true, finished, false, first⟩
      (tohex (byte.toNat / 16) (WvHexEncoder.new uppercase).self.alphabase) =
        (⟨true, finished, true, byte.toNat / 16⟩, []) := by
    simp [loop, step, hdigit, hvalue]
  have hnext : loop.step ⟨true, finished, true, byte.toNat / 16⟩
      (tohex (byte.toNat % 16) (WvHexEncoder.new uppercase).self.alphabase) =
        (⟨true, finished, false, byte.toNat / 16⟩, [byte]) := by
    simp [loop, step, hdigit', hvalue', hsum]
  show loop.run _ [tohex (byte.toNat >>> 4) _, tohex (byte.toNat &&& 15) _] = _
  rw [hhigh, hlow, Transducer.run_cons, hfirst, Transducer.run_cons, hnext]
  rfl

theorem step_blank (e : WvEncoder WvHexDecoder) {c : Byte} (h : isspace c = true) :
    step e c = (e, []) := by
  have hdigit : isxdigit c = false := by
    by_contra hdigit
    have := isspace_of_isxdigit (Bool.of_not_eq_false hdigit)
    rw [h] at this
    cases this
  simp [step, h, hdigit]

theorem run_spaced (e : WvEncoder WvHexDecoder) (text : Str) :
    loop.run e text = loop.run e (text.filter fun c => !isspace c) := by
  induction text generalizing e with
  | nil => rfl
  | cons c text ih =>
    rw [filter_cons]
    cases hc : isspace c with
    | true =>
      have hstep : loop.step e c = (e, []) := step_blank e hc
      rw [Transducer.run_cons, hstep]
      exact ih e
    | false =>
      rw [Transducer.run_cons, ih]
      rfl

def Allowed (c : Byte) : Prop := isxdigit c = true ∨ isspace c = true

theorem okay_step (e : WvEncoder WvHexDecoder) (c : Byte) :
    (step e c).1.okay = true ↔ e.okay = true ∧ Allowed c := by
  obtain ⟨okay, finished, issecond, first⟩ := e
  cases okay <;> cases hdigit : isxdigit c <;> cases hspace : isspace c <;> cases issecond <;>
    simp [step, setnotok, Allowed, hdigit, hspace]

theorem run_okay (e : WvEncoder WvHexDecoder) (text : Str) :
    (loop.run e text).1.okay = true ↔ e.okay = true ∧ ∀ c ∈ text, Allowed c := by
  induction text generalizing e with
  | nil => simp
  | cons c text ih =>
    rw [Transducer.run_cons, forall_mem_cons, ← and_assoc, ← okay_step]
    exact ih _

theorem step_issecond (hokay : e.okay = true) (c : Byte) :
    (step e c).1.self.issecond = (e.self.issecond ^^ isxdigit c) := by
  obtain ⟨okay, finished, issecond, first⟩ := e
  cases hokay
  cases hdigit : isxdigit c <;> cases hspace : isspace c <;> cases issecond <;>
    simp [step, setnotok, hdigit, hspace]

theorem run_issecond (hokay : e.okay = true) {text : Str} (h : ∀ c ∈ text, Allowed c) :
    (loop.run e text).1.self.issecond =
      (e.self.issecond ^^ decide (text.countP isxdigit % 2 = 1)) := by
  induction text generalizing e with
  | nil => simp
  | cons c text ih =>
    obtain ⟨hc, htext⟩ := forall_mem_cons.mp h
    have hnext : (loop.step e c).1.okay = true := (okay_step e c).mpr ⟨hokay, hc⟩
    have hstep : (loop.step e c).1.self.issecond = (e.self.issecond ^^ isxdigit c) :=
      step_issecond hokay c
    rw [Transducer.run_cons, ih hnext htext, hstep, Bool.xor_assoc, countP_cons]
    congr 1
    cases isxdigit c with
    | false => simp
    | true =>
      simp only [if_true, Bool.true_xor]
      rcases Nat.mod_two_eq_zero_or_one (text.countP isxdigit) with hmod | hmod
      · simp [hmod, Nat.add_mod]
      · simp [hmod, Nat.add_mod]

theorem unfinished_step (e : WvEncoder WvHexDecoder) (c : Byte) (h : e.finished = false) :
    (loop.step e c).1.finished = false := by
  show (step e c).1.finished = false
  unfold step
  split_ifs <;> exact h

theorem stopped_step (h : e.okay = false) (c : Byte) : loop.step e c = (e, []) := by
  show step e c = _
  rw [step, h, if_neg Bool.false_ne_true]

theorem encodeChunks_flatten (uppercase : Bool) (chunks : List Str) :
    (WvHexEncoder.new uppercase).encodeChunks WvHexEncoder.methods chunks =
      WvHexEncoder.loop.run (WvHexEncoder.new uppercase) chunks.flatten := by
  have hlive : ∀ (e : WvEncoder WvHexEncoder) (a : Byte), e.live = true →
      (WvHexEncoder.loop.step e a).1.live = true := fun _ _ h => h
  rw [encodeChunks_eq_feed (t := WvHexEncoder.loop) hlive (fun _ _ _ => rfl) rfl]
  exact Transducer.feed_live hlive (fun _ h => h) rfl chunks

theorem decodeChunks_flatten (text : List Str) :
    new.encodeChunks methods text =
      loop.run new text.flatten := by
  rw [encodeChunks_eq_feed (t := loop) unfinished_step (fun _ _ _ => rfl) rfl]
  apply Transducer.feed_stopped unfinished_step (fun e he hdead => ?_) rfl
  apply stopped_step
  simpa [live, he] using hdead

theorem run_new (uppercase : Bool) (data : Str) :
    (WvHexEncoder.loop.run (WvHexEncoder.new uppercase) data).1 = WvHexEncoder.new uppercase :=
  Transducer.run_induct (P := fun e => e = WvHexEncoder.new uppercase) (fun _ _ h => h) rfl data

theorem flushEncoder_flatten (uppercase : Bool) (chunks : List Str) (last : Str) :
    (WvHexEncoder.new uppercase).flushChunks WvHexEncoder.methods chunks last =
      (WvHexEncoder.new uppercase,
        (WvHexEncoder.loop.run (WvHexEncoder.new uppercase) (chunks.flatten ++ last)).2, true) := by
  have hchunks := run_new uppercase chunks.flatten
  rw [flushChunks, encodeChunks_flatten, Transducer.run_append, hchunks]
  simp only [encode, WvHexEncoder.methods, WvHexEncoder._encode, Bool.or_true,
    Bool.and_true, Bool.false_eq_true, if_false, run_new]
  rfl

theorem flushDecoder_flatten (chunks : List Str) (last : Str) :
    new.flushChunks methods chunks last =
      let r := loop.run new (chunks.flatten ++ last)
      (r.1, r.2, r.1.okay && !r.1.self.issecond) := by
  have hunfinished : (loop.run new chunks.flatten).1.finished = false :=
    Transducer.run_induct unfinished_step rfl chunks.flatten
  rw [flushChunks, decodeChunks_flatten, Transducer.run_append]
  cases hokay : (loop.run new chunks.flatten).1.okay with
  | false =>
    simp [encode, live, hokay, Transducer.run_stopped (stopped_step hokay)]
  | true =>
    simp [encode, live, hokay, hunfinished, methods, _encode]

theorem fails_iff (input : Str) :
    let e := (loop.run new input).1
    ((e.okay && !e.self.issecond) = false ↔
      (∃ c ∈ input, isxdigit c = false ∧ isspace c = false) ∨ input.countP isxdigit % 2 = 1) ∧
    (e.okay = false ↔ ∃ c ∈ input, isxdigit c = false ∧ isspace c = false) := by
  intro e
  have hrun : e.okay = true ↔ new.okay = true ∧ ∀ c ∈ input, Allowed c :=
    run_okay new input
  have hbad : (∃ c ∈ input, isxdigit c = false ∧ isspace c = false) ↔ ¬ ∀ c ∈ input, Allowed c := by
    simp [Allowed]
  rw [hbad]
  by_cases hall : ∀ c ∈ input, Allowed c
  · have hokay : e.okay = true := hrun.mpr ⟨rfl, hall⟩
    have hsecond : e.self.issecond = decide (input.countP isxdigit % 2 = 1) :=
      (run_issecond rfl hall).trans (Bool.false_xor _)
    have hnot : ¬ ¬ ∀ c ∈ input, Allowed c := not_not_intro hall
    simp [hokay, hsecond, hnot]
  · have hokay : e.okay = false := by
      rw [← Bool.not_eq_true, hrun]
      exact fun h => hall h.2
    rw [hokay]
    exact ⟨⟨fun _ => Or.inl hall, fun _ => rfl⟩, ⟨fun _ => hall, fun _ => rfl⟩⟩

/-- The decoder has read all that the encoder has written. -/
def Tracks (uppercase : Bool) (s : WvEncoder WvHexEncoder) (t : WvEncoder WvHexDecoder)
    (pend : Str) : Prop :=
  s = WvHexEncoder.new uppercase ∧ t.okay = true ∧ t.self.issecond = false ∧ pend = []

theorem tracks_step {uppercase : Bool} (s : WvEncoder WvHexEncoder) (t : WvEncoder WvHexDecoder)
    (pend : Str) (a : Byte) (hR : Tracks uppercase s t pend) :
    ∃ pend', Tracks uppercase (WvHexEncoder.loop.step s a).1
        (loop.run t (WvHexEncoder.loop.step s a).2).1 pend' ∧
      pend ++ [a] = (loop.run t (WvHexEncoder.loop.step s a).2).2 ++ pend' := by
  obtain ⟨rfl, hokay, hsecond, rfl⟩ := hR
  rw [decode_byte uppercase hokay hsecond]
  exact ⟨[], ⟨rfl, hokay, rfl, rfl⟩, rfl⟩

/-- In either case, the text that the encoder writes does not depend on how the data is cut. Where
blanks are put into the text, the decoder gives back the data however that is cut. A flush behind
any other text fails exactly if a character is not allowed or the number of digits is odd, and
only a character that is not allowed is an error of the decoder. -/
theorem hex_decode_encode (uppercase : Bool) (chunks : List Str) (last : Str) :
    let text := ((WvHexEncoder.new uppercase).flushChunks WvHexEncoder.methods chunks last).2.1
    let decoded := new.flushChunks methods
    text = ((WvHexEncoder.new uppercase).flushChunks WvHexEncoder.methods []
        (chunks.flatten ++ last)).2.1 ∧
      (∀ cut end_, (cut.flatten ++ end_).filter (fun c => !isspace c) = text →
        (decoded cut end_).2 = (chunks.flatten ++ last, true)) ∧
      ∀ cut end_, let input := cut.flatten ++ end_
        ((decoded cut end_).2.2 = false ↔
          (∃ c ∈ input, isxdigit c = false ∧ isspace c = false) ∨ input.countP isxdigit % 2 = 1) ∧
        ((decoded cut end_).1.okay = false ↔
          ∃ c ∈ input, isxdigit c = false ∧ isspace c = false) := by
  intro text decoded
  have htext : text = (WvHexEncoder.loop.run (WvHexEncoder.new uppercase)
      (chunks.flatten ++ last)).2 := by
    simp only [text, flushEncoder_flatten]
  refine ⟨?_, ?_, ?_⟩
  · rw [htext, flushEncoder_flatten]
    rfl
  · intro cut end_ hspaced
    have hstart : Tracks uppercase (WvHexEncoder.new uppercase) new [] :=
      ⟨rfl, rfl, rfl, rfl⟩
    obtain ⟨pend, ⟨-, hokay, hsecond, rfl⟩, hout⟩ :=
      Transducer.decodes tracks_step hstart (chunks.flatten ++ last)
    rw [nil_append, append_nil] at hout
    simp only [decoded, flushDecoder_flatten]
    rw [run_spaced, hspaced, htext, hokay, hsecond, ← hout]
    rfl
  · intro cut end_
    simp only [decoded, flushDecoder_flatten]
    exact fails_iff _

/-- `Ab` is written as `4162`, and read with blanks in it, in three parts. -/
theorem hex_decode_encode_spaced :
    (WvHexDecoder.new.flushChunks WvHexDecoder.methods [[52, 32], [49, 54, 10]] [50]).2 =
      ([65, 98], true) :=
  (hex_decode_encode true [[65]] [98]).2.1 [[52, 32], [49, 54, 10]] [50] (by decide)

end Hex

end WvStreams
