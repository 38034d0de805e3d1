import WvStreams.Codecs.Encoder

/-!
# Base64

The encoder and the decoder keep the bits of the byte that is under way: the encoder those that
are not written yet, the decoder those that are not given back yet. Between two bytes these
are the lower and the upper part of one byte (`Tracks`), from which the round trip follows
(`decode_encode`).
-/

namespace WvStreams

open Lib WvEncoder

namespace Base64

/-- `alphabet`, with the padding character and a newline at the end. -/
def alphabet : Str :=
  "ABCDEFGHIJKLMNOPQRSTUVWXYZabcdefghijklmnopqrstuvwxyz0123456789+/=\n".toList.map fun c => c.toUInt8

/-- The code of a character: 64 for padding, 65 for blanks, -1 for what is not allowed. -/
def lookup (ch : Byte) : Int :=
  if 65 ≤ ch ∧ ch ≤ 90 then (ch.toNat : Int) - 65
  else if 97 ≤ ch ∧ ch ≤ 122 then (ch.toNat : Int) - 97 + 26
  else if 48 ≤ ch ∧ ch ≤ 57 then (ch.toNat : Int) - 48 + 52
  else if ch = 43 then 62
  else if ch = 47 then 63
  else if ch = 61 then 64
  else if ch = 10 ∨ ch = 32 ∨ ch = 13 ∨ ch = 9 ∨ ch = 12 ∨ ch = 11 then 65
  else -1

end Base64

/-- The states of the encoder. -/
inductive Base64Encoding where
  | atBit0
  | atBit2
  | atBit4
  deriving DecidableEq

structure WvBase64Encoder where
  state : Base64Encoding := .atBit0
  bits : Nat := 0

namespace WvBase64Encoder

open Base64

def step (e : WvEncoder WvBase64Encoder) (next : Byte) : WvEncoder WvBase64Encoder × Str :=
  let bits := e.self.bits <<< 8 ||| next.toNat
  match e.self.state with
  | .atBit0 =>
    ({ e with self := ⟨.atBit2, bits &&& 0x03⟩ }, [alphabet.getD (bits >>> 2) 0])
  | .atBit2 =>
    ({ e with self := ⟨.atBit4, bits &&& 0x0f⟩ }, [alphabet.getD (bits >>> 4) 0])
  | .atBit4 =>
    ({ e with self := ⟨.atBit0, 0⟩ },
      [alphabet.getD (bits >>> 6) 0, alphabet.getD (bits &&& 0x3f) 0])

def loop : Transducer (WvEncoder WvBase64Encoder) Byte Byte := ⟨step⟩

def _encode (e : WvEncoder WvBase64Encoder) (inbuf : Str) (flush : Bool) :
    WvEncoder WvBase64Encoder × Str × Bool :=
  let (e, out) := loop.run e inbuf
  -- do not consider the data flushed if we need padding
  (e, out, !(flush && e.self.state != .atBit0))

def _finish (e : WvEncoder WvBase64Encoder) : Str × Bool :=
  match e.self.state with
  | .atBit2 => ([alphabet.getD (e.self.bits <<< 4) 0, 61, 61], true)
  | .atBit4 => ([alphabet.getD (e.self.bits <<< 2) 0, 61], true)
  | .atBit0 => ([], true)

def methods : WvEncoder.Methods WvBase64Encoder := ⟨_encode, _finish⟩

def new : WvEncoder WvBase64Encoder := ⟨true, false, {}⟩

end WvBase64Encoder

/-- The states of the decoder. -/
inductive Base64Decoding where
  | atBit0
  | atBit2
  | atBit4
  | atBit6
  | pad
  deriving DecidableEq

structure WvBase64Decoder where
  state : Base64Decoding := .atBit0
  bits : Nat := 0

namespace WvBase64Decoder

open Base64

def symbolStep (e : WvEncoder WvBase64Decoder) (symbol : Nat) : WvEncoder WvBase64Decoder × Str :=
  let bits := e.self.bits <<< 6 ||| symbol
  match e.self.state with
  | .atBit0 => ({ e with self := ⟨.atBit2, bits⟩ }, [])
  | .atBit2 => ({ e with self := ⟨.atBit4, bits &&& 0x0f⟩ }, [UInt8.ofNat (bits >>> 4)])
  | .atBit4 => ({ e with self := ⟨.atBit6, bits &&& 0x03⟩ }, [UInt8.ofNat (bits >>> 2)])
  | .atBit6 => ({ e with self := ⟨.atBit0, 0⟩ }, [UInt8.ofNat bits])
  | .pad => (setnotok { e with self := ⟨.pad, bits⟩ }, [])

def step (e : WvEncoder WvBase64Decoder) (next : Byte) : WvEncoder WvBase64Decoder × Str :=
  if e.okay then
    let symbol := lookup next
    if symbol = -1 then (e.setnotok, [])
    else if symbol = 64 then
      (setfinished { e with self := ⟨.pad, e.self.bits⟩ }, [])
    else if symbol = 65 then (e, [])
    else symbolStep e symbol.toNat
  else (e, [])

def loop : Transducer (WvEncoder WvBase64Decoder) Byte Byte := ⟨step⟩

def _encode (e : WvEncoder WvBase64Decoder) (inbuf : Str) (flush : Bool) :
    WvEncoder WvBase64Decoder × Str × Bool :=
  let (e, out) := loop.run e inbuf
  -- insufficient padding to flush
  (e, out, e.okay && !(flush && (e.self.state = .atBit2 ∨ e.self.state = .atBit4 ∨
    e.self.state = .atBit6)))

def methods : WvEncoder.Methods WvBase64Decoder := { _encode := _encode }

def new : WvEncoder WvBase64Decoder := ⟨true, false, {}⟩

end WvBase64Decoder

namespace Base64

variable {i : Nat}

theorem lookup_alphabet (h : i < 64) : lookup (alphabet.getD i 0) = i := by
  have hall : ∀ i : Fin 64, lookup (alphabet.getD i 0) = i := by decide +kernel
  exact hall ⟨i, h⟩

open WvBase64Decoder

theorem decoder_step {e : WvEncoder WvBase64Decoder} (he : e.okay = true) (h : i < 64) :
    loop.step e (alphabet.getD i 0) = symbolStep e i := by
  have hlookup := lookup_alphabet h
  have h1 : ¬ (i : Int) = -1 := by omega
  have h2 : ¬ (i : Int) = 64 := by omega
  have h3 : ¬ (i : Int) = 65 := by omega
  show step e (alphabet.getD i 0) = _
  rw [step, if_pos he]
  rw [hlookup, if_neg h1, if_neg h2, if_neg h3, Int.toNat_natCast]

abbrev enc (state : Base64Encoding) (bits : Nat) : WvEncoder WvBase64Encoder :=
  ⟨true, false, ⟨state, bits⟩⟩

abbrev dec (state : Base64Decoding) (bits : Nat) : WvEncoder WvBase64Decoder :=
  ⟨true, false, ⟨state, bits⟩⟩

theorem enc_atBit0 (a : Byte) : WvBase64Encoder.loop.step (enc .atBit0 0) a =
    (enc .atBit2 (a.toNat % 4), [alphabet.getD (a.toNat / 4) 0]) := by
  have hbits : 0 <<< 8 ||| a.toNat = a.toNat := by simp
  have hlow : a.toNat &&& 0x03 = a.toNat % 4 := and_low a.toNat 2
  have hhigh : a.toNat >>> 2 = a.toNat / 4 := Nat.shiftRight_eq_div_pow _ 2
  simp only [WvBase64Encoder.loop, WvBase64Encoder.step, enc, hbits, hlow, hhigh]

theorem enc_atBit2 (b : Nat) (a : Byte) : WvBase64Encoder.loop.step (enc .atBit2 (b % 4)) a =
    (enc .atBit4 (a.toNat % 16), [alphabet.getD (b % 4 * 16 + a.toNat / 16) 0]) := by
  have ha := a.toNat_lt
  have hbits : (b % 4) <<< 8 ||| a.toNat = b % 4 * 256 + a.toNat := shift_or (k := 8) _ (by omega)
  have hmask : b % 4 * 256 + a.toNat &&& 0x0f = (b % 4 * 256 + a.toNat) % 16 := and_low _ 4
  have hlow : (b % 4 * 256 + a.toNat) % 16 = a.toNat % 16 := by omega
  have hhigh : (b % 4 * 256 + a.toNat) >>> 4 = b % 4 * 16 + a.toNat / 16 := by
    rw [Nat.shiftRight_eq_div_pow]
    omega
  simp only [WvBase64Encoder.loop, WvBase64Encoder.step, enc, hbits, hmask, hlow, hhigh]

theorem enc_atBit4 (b : Nat) (a : Byte) : WvBase64Encoder.loop.step (enc .atBit4 (b % 16)) a =
    (enc .atBit0 0,
      [alphabet.getD (b % 16 * 4 + a.toNat / 64) 0, alphabet.getD (a.toNat % 64) 0]) := by
  have ha := a.toNat_lt
  have hbits : (b % 16) <<< 8 ||| a.toNat = b % 16 * 256 + a.toNat := shift_or (k := 8) _ (by omega)
  have hmask : b % 16 * 256 + a.toNat &&& 0x3f = (b % 16 * 256 + a.toNat) % 64 := and_low _ 6
  have hlow : (b % 16 * 256 + a.toNat) % 64 = a.toNat % 64 := by omega
  have hhigh : (b % 16 * 256 + a.toNat) >>> 6 = b % 16 * 4 + a.toNat / 64 := by
    rw [Nat.shiftRight_eq_div_pow]
    omega
  simp only [WvBase64Encoder.loop, WvBase64Encoder.step, enc, hbits, hmask, hlow, hhigh]

theorem dec_atBit0 (h : i < 64) :
    loop.step (dec .atBit0 0) (alphabet.getD i 0) = (dec .atBit2 i, []) := by
  have hbits : 0 <<< 6 ||| i = i := by simp
  rw [decoder_step rfl h]
  simp only [symbolStep, dec, hbits]

theorem dec_atBit2 {bits : Nat} (h : i < 64) :
    loop.step (dec .atBit2 bits) (alphabet.getD i 0) =
      (dec .atBit4 (i % 16), [UInt8.ofNat (bits * 4 + i / 16)]) := by
  have hbits : bits <<< 6 ||| i = bits * 64 + i := shift_or _ h
  have hmask : bits * 64 + i &&& 0x0f = (bits * 64 + i) % 16 := and_low _ 4
  have hlow : (bits * 64 + i) % 16 = i % 16 := by omega
  have hhigh : (bits * 64 + i) >>> 4 = bits * 4 + i / 16 := by
    rw [Nat.shiftRight_eq_div_pow]
    omega
  rw [decoder_step rfl h]
  simp only [symbolStep, dec, hbits, hmask, hlow, hhigh]

theorem dec_atBit4 {bits : Nat} (h : i < 64) :
    loop.step (dec .atBit4 bits) (alphabet.getD i 0) =
      (dec .atBit6 (i % 4), [UInt8.ofNat (bits * 16 + i / 4)]) := by
  have hbits : bits <<< 6 ||| i = bits * 64 + i := shift_or _ h
  have hmask : bits * 64 + i &&& 0x03 = (bits * 64 + i) % 4 := and_low _ 2
  have hlow : (bits * 64 + i) % 4 = i % 4 := by omega
  have hhigh : (bits * 64 + i) >>> 2 = bits * 16 + i / 4 := by
    rw [Nat.shiftRight_eq_div_pow]
    omega
  rw [decoder_step rfl h]
  simp only [symbolStep, dec, hbits, hmask, hlow, hhigh]

theorem dec_atBit6 {bits : Nat} (h : i < 64) :
    loop.step (dec .atBit6 bits) (alphabet.getD i 0) =
      (dec .atBit0 0, [UInt8.ofNat (bits * 64 + i)]) := by
  have hbits : bits <<< 6 ||| i = bits * 64 + i := shift_or _ h
  rw [decoder_step rfl h]
  simp only [symbolStep, dec, hbits]

/-- The decoder has read all that the encoder has written, and lacks the bits of the byte that
is under way. -/
inductive Tracks : WvEncoder WvBase64Encoder → WvEncoder WvBase64Decoder → Str → Prop
  | atBit0 : Tracks (enc .atBit0 0) (dec .atBit0 0) []
  | atBit2 (b : Byte) : Tracks (enc .atBit2 (b.toNat % 4)) (dec .atBit2 (b.toNat / 4)) [b]
  | atBit4 (b : Byte) : Tracks (enc .atBit4 (b.toNat % 16)) (dec .atBit4 (b.toNat / 16)) [b]

theorem ofNat_toNat_eq {n : Nat} {b : Byte} (h : n = b.toNat) : UInt8.ofNat n = b := by
  rw [h, UInt8.ofNat_toNat]

theorem tracks_step (s : WvEncoder WvBase64Encoder) (t : WvEncoder WvBase64Decoder) (pend : Str)
    (a : Byte) (h : Tracks s t pend) :
    ∃ pend', Tracks (WvBase64Encoder.loop.step s a).1
        (loop.run t (WvBase64Encoder.loop.step s a).2).1 pend' ∧ pend ++ [a] =
        (loop.run t (WvBase64Encoder.loop.step s a).2).2 ++ pend' := by
  have ha := a.toNat_lt
  cases h with
  | atBit0 =>
    rw [enc_atBit0, Transducer.run_cons, dec_atBit0 (by omega)]
    exact ⟨[a], .atBit2 a, rfl⟩
  | atBit2 b =>
    rw [enc_atBit2, Transducer.run_cons, dec_atBit2 (by omega)]
    have hbyte : UInt8.ofNat (b.toNat / 4 * 4 + (b.toNat % 4 * 16 + a.toNat / 16) / 16) = b :=
      ofNat_toNat_eq (by omega)
    have hrest : (b.toNat % 4 * 16 + a.toNat / 16) % 16 = a.toNat / 16 := by omega
    rw [hbyte, hrest]
    exact ⟨[a], .atBit4 a, rfl⟩
  | atBit4 b =>
    rw [enc_atBit4, Transducer.run_cons, dec_atBit4 (by omega), Transducer.run_cons,
      dec_atBit6 (by omega)]
    have hbyte : UInt8.ofNat (b.toNat / 16 * 16 + (b.toNat % 16 * 4 + a.toNat / 64) / 4) = b :=
      ofNat_toNat_eq (by omega)
    have hnext : UInt8.ofNat ((b.toNat % 16 * 4 + a.toNat / 64) % 4 * 64 + a.toNat % 64) = a :=
      ofNat_toNat_eq (by omega)
    rw [hbyte, hnext]
    exact ⟨[], .atBit0, rfl⟩

def Silent (e : WvEncoder WvBase64Decoder) : Prop := e.okay = false ∨ e.self.state = .pad

theorem silent_step (e : WvEncoder WvBase64Decoder) (a : Byte) (h : Silent e) :
    Silent (loop.step e a).1 ∧ (loop.step e a).2 = [] := by
  show Silent (step e a).1 ∧ (step e a).2 = []
  rw [step]
  split
  · rename_i hokay
    have hpad : e.self.state = .pad := by
      rcases h with h | h
      · rw [hokay] at h
        cases h
      · exact h
    dsimp only
    split
    · exact ⟨Or.inl rfl, rfl⟩
    · split
      · exact ⟨Or.inr rfl, rfl⟩
      · split
        · exact ⟨h, rfl⟩
        · rw [symbolStep, hpad]
          exact ⟨Or.inl rfl, rfl⟩
  · exact ⟨h, rfl⟩

theorem run_padding {e : WvEncoder WvBase64Decoder} (he : e.okay = true) (s : Str) :
    (loop.run e (61 :: s)).2 = [] := by
  have hstep : loop.step e 61 =
      (setfinished { e with self := ⟨.pad, e.self.bits⟩ }, []) := by
    have hlookup : lookup 61 = 64 := by decide
    show step e 61 = _
    rw [step, if_pos he]
    rw [hlookup, if_neg (by decide), if_pos rfl]
  rw [Transducer.run_cons, hstep]
  exact Transducer.run_silent silent_step (Or.inr rfl) s

theorem decode_finish {s : WvEncoder WvBase64Encoder} {t : WvEncoder WvBase64Decoder} {pend : Str}
    (h : Tracks s t pend) : (loop.run t (WvBase64Encoder._finish s).1).2 = pend := by
  cases h with
  | atBit0 => rfl
  | atBit2 b =>
    have hbits : (b.toNat % 4) <<< 4 = b.toNat % 4 * 16 := Nat.shiftLeft_eq _ _
    have htext : (WvBase64Encoder._finish (enc .atBit2 (b.toNat % 4))).1 =
        [alphabet.getD (b.toNat % 4 * 16) 0, 61, 61] := by
      simp only [WvBase64Encoder._finish, hbits]
    have hbyte : UInt8.ofNat (b.toNat / 4 * 4 + b.toNat % 4 * 16 / 16) = b :=
      ofNat_toNat_eq (by omega)
    rw [htext, Transducer.run_cons, dec_atBit2 (by omega), hbyte]
    rw [run_padding rfl]
    rfl
  | atBit4 b =>
    have hbits : (b.toNat % 16) <<< 2 = b.toNat % 16 * 4 := Nat.shiftLeft_eq _ _
    have htext : (WvBase64Encoder._finish (enc .atBit4 (b.toNat % 16))).1 =
        [alphabet.getD (b.toNat % 16 * 4) 0, 61] := by
      simp only [WvBase64Encoder._finish, hbits]
    have hbyte : UInt8.ofNat (b.toNat / 16 * 16 + b.toNat % 16 * 4 / 4) = b :=
      ofNat_toNat_eq (by omega)
    rw [htext, Transducer.run_cons, dec_atBit4 (by omega), hbyte]
    rw [run_padding rfl]
    rfl

theorem live_step (e : WvEncoder WvBase64Encoder) (a : Byte) (h : e.live = true) :
    (WvBase64Encoder.loop.step e a).1.live = true := by
  show (WvBase64Encoder.step e a).1.live = true
  rw [WvBase64Encoder.step]
  split <;> exact h

theorem encodeChunks_flatten (chunks : List Str) :
    WvBase64Encoder.new.encodeChunks WvBase64Encoder.methods chunks =
      WvBase64Encoder.loop.run WvBase64Encoder.new chunks.flatten := by
  rw [encodeChunks_eq_feed (t := WvBase64Encoder.loop) live_step (fun _ _ _ => rfl) rfl]
  exact Transducer.feed_live live_step (fun _ h => h) rfl chunks

theorem finishChunks_flatten (chunks : List Str) :
    WvBase64Encoder.new.finishChunks WvBase64Encoder.methods chunks =
      (WvBase64Encoder.loop.run WvBase64Encoder.new chunks.flatten).2 ++ (WvBase64Encoder._finish
          (WvBase64Encoder.loop.run WvBase64Encoder.new chunks.flatten).1).1 := by
  have hlive : (WvBase64Encoder.loop.run WvBase64Encoder.new chunks.flatten).1.live = true :=
    Transducer.run_induct live_step rfl chunks.flatten
  rw [finishChunks, encodeChunks_flatten]
  dsimp only [finish]
  rw [hlive, if_pos rfl]
  rfl

def Padded (e : WvEncoder WvBase64Decoder) : Prop := e.finished = true → e.self.state = .pad

theorem padded_step (e : WvEncoder WvBase64Decoder) (a : Byte) (h : Padded e) :
    Padded (loop.step e a).1 := by
  show Padded (step e a).1
  rw [step]
  split
  · dsimp only
    split
    · exact h
    · split
      · exact fun _ => rfl
      · split
        · exact h
        · intro hfinished
          have hkept : (symbolStep e (lookup a).toNat).1.finished = e.finished := by
            unfold symbolStep
            split <;> rfl
          rw [hkept] at hfinished
          rw [symbolStep, h hfinished]
          rfl
  · exact h

/-- The output of the decoder does not depend on how its text is cut, whatever the text. -/
theorem decodeChunks_flatten (text : List Str) :
    (new.encodeChunks methods text).2 =
      (loop.run new text.flatten).2 := by
  have hnew : Padded new := nofun
  rw [encodeChunks_eq_feed (t := loop) padded_step (fun _ _ _ => rfl) hnew]
  have hdead : ∀ e, Padded e → e.live = false → ∀ xs, (loop.run e xs).2 = [] := by
    intro e he hlive
    apply Transducer.run_silent silent_step
    cases hokay : e.okay with
    | false => exact Or.inl hokay
    | true =>
      right
      apply he
      simpa [live, hokay] using hlive
  exact Transducer.feed_eq padded_step hdead hnew text

/-- The text that the encoder writes does not depend on how the data is cut, and the decoder
gives back the data, however the text is cut. -/
theorem decode_encode (chunks : List Str) :
    let text := WvBase64Encoder.new.finishChunks WvBase64Encoder.methods chunks
    text = WvBase64Encoder.new.finishChunks WvBase64Encoder.methods [chunks.flatten] ∧
      ∀ cut : List Str, cut.flatten = text → (new.encodeChunks methods cut).2 = chunks.flatten := by
  intro text
  refine ⟨?_, ?_⟩
  · have hone : [chunks.flatten].flatten = chunks.flatten := by simp
    rw [finishChunks_flatten [chunks.flatten], hone]
    exact finishChunks_flatten chunks
  · intro cut hcut
    have hstart : Tracks WvBase64Encoder.new new [] := Tracks.atBit0
    obtain ⟨pend, hR, hout⟩ := Transducer.decodes tracks_step hstart chunks.flatten
    have htext : text = _ := finishChunks_flatten chunks
    rw [decodeChunks_flatten, hcut, htext, Transducer.run_append]
    dsimp only
    rw [decode_finish hR]
    exact hout.symm

/-- `ab` in two chunks: the text is `YWI=`, here cut behind its first character. -/
theorem decode_encode_ab :
    (WvBase64Decoder.new.encodeChunks WvBase64Decoder.methods [[89], [87, 73, 61]]).2 =
      [97, 98] :=
  (decode_encode [[97], [98]]).2 [[89], [87, 73, 61]] (by decide +kernel)

end Base64

end WvStreams
