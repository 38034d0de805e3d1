import WvStreams.Codecs.Stack
import WvStreams.Codecs.Base64
import WvStreams.Codecs.Hex

/-!
# Chains of codecs

The encoders and decoders of hex and base64 read their input byte by byte (`ReadsBytes`), so that
each of them is independent of how its data come. The classes of the encoders in a chain are
summands of a sum. What a chain of encoders has put out is decoded by a chain of their decoders in
the opposite order (`stack_decodes`).
-/

namespace WvStreams

open Lib List WvEncoderChain WvBase64Encoder Transducer

open WvEncoder (Encoded Methods Virtual)

variable {σ τ ω : Type}

namespace WvEncoder

/-- What a loop over the input has not read when it is left by an error. -/
def unread (loop : Transducer (WvEncoder σ) Byte Byte) : WvEncoder σ → Str → Str
  | _, [] => []
  | e, c :: s => if (loop.step e c).1.okay then unread loop (loop.step e c).1 s else s

def Virtual.ofLoop (m : Methods σ) (loop : Transducer (WvEncoder σ) Byte Byte) : Virtual σ where
  _encode e inbuf flush :=
    let (enc, out, success) := m._encode e inbuf flush
    ⟨enc, unread loop e inbuf, out, success⟩
  _finish e :=
    let (out, success) := m._finish e
    ⟨e, [], out, success⟩

def ending (m : Methods σ) (e : WvEncoder σ) : Str := if e.live then (m._finish e).1 else []

/-- The loop of a subclass, with what holds of its states. An error is final, and a state that
takes no more data would not write anything for them. -/
structure ReadsBytes (m : Methods σ) (loop : Transducer (WvEncoder σ) Byte Byte)
    (P : WvEncoder σ → Prop) : Prop where
  enc_eq : ∀ e inbuf flush, (m._encode e inbuf flush).1 = (loop.run e inbuf).1
  out_eq : ∀ e inbuf flush, (m._encode e inbuf flush).2.1 = (loop.run e inbuf).2
  step : ∀ e a, P e → P (loop.step e a).1
  stop : ∀ e a, e.okay = false → (loop.step e a).1.okay = false
  dead : ∀ e, P e → e.live = false → ∀ s, (loop.run e s).2 = [] ∧ ending m (loop.run e s).1 = []

section

variable {m : Methods σ} {loop : Transducer (WvEncoder σ) Byte Byte} {P : WvEncoder σ → Prop}
  {e start : WvEncoder σ} {data inbuf out : Str}

theorem ReadsBytes.unread_eq (h : ReadsBytes m loop P) (e : WvEncoder σ) (s : Str) :
    unread loop e s = [] ∨ (loop.run e s).1.okay = false := by
  induction s generalizing e with
  | nil => exact .inl rfl
  | cons c s ih =>
    rw [unread, run_cons]
    split
    · exact ih _
    · rename_i herror
      exact .inr (run_induct h.stop (Bool.of_not_eq_true herror) s)

theorem ReadsBytes.encode (h : ReadsBytes m loop P) (hlive : e.live = true) (inbuf : Str)
    (flush : Bool) :
    let r := (Virtual.ofLoop m loop).encode e inbuf flush
    r.enc = (loop.run e inbuf).1 ∧ r.out = (loop.run e inbuf).2 ∧
      (r.rest = [] ∨ r.enc.live = false) := by
  rw [Virtual.encode, hlive, Bool.true_and]
  split
  · have henc := h.enc_eq e inbuf flush
    refine ⟨henc, h.out_eq e inbuf flush, (h.unread_eq e inbuf).imp_right fun hokay => ?_⟩
    show (m._encode e inbuf flush).1.live = false
    rw [henc, live, hokay, Bool.false_and]
  · rename_i hskip
    obtain rfl : inbuf = [] := by
      cases inbuf with
      | nil => rfl
      | cons c inbuf => exact absurd rfl hskip
    exact ⟨rfl, rfl, .inl rfl⟩

theorem ReadsBytes.drain_eq (h : ReadsBytes m loop P) (he : P e) (inbuf : Str) :
    (Virtual.ofLoop m loop).drain e inbuf =
      (loop.run e inbuf).2 ++ ending m (loop.run e inbuf).1 := by
  rw [Virtual.drain]
  cases hlive : e.live with
  | true =>
    obtain ⟨henc, hout, -⟩ := h.encode hlive inbuf true
    rw [henc, hout, Virtual.finish, ending]
    split <;> rfl
  | false =>
    obtain ⟨hout, hend⟩ := h.dead e he hlive inbuf
    rw [Virtual.encode_of_not_live hlive, Virtual.finish_of_not_live hlive, hout, hend]

theorem ReadsBytes.fed (h : ReadsBytes m loop P) (hstart : P start)
    (hfed : (Virtual.ofLoop m loop).Fed start data e inbuf out) :
    ∃ fed rest, data = fed ++ rest ∧ e = (loop.run start fed).1 ∧ out = (loop.run start fed).2 ∧
      P e ∧ (e.live = true → rest = inbuf) := by
  induction hfed with
  | start => exact ⟨[], [], rfl, rfl, rfl, hstart, fun _ => rfl⟩
  | put _ chunk ih =>
    obtain ⟨fed, rest, rfl, he, hout, hP, hrest⟩ := ih
    exact ⟨fed, rest ++ chunk, append_assoc _ _ _, he, hout, hP,
      fun hlive => congrArg (· ++ chunk) (hrest hlive)⟩
  | @encode data e inbuf out _ flush ih =>
    obtain ⟨fed, rest, rfl, rfl, rfl, hP, hrest⟩ := ih
    cases hlive : (loop.run start fed).1.live with
    | true =>
      obtain rfl := hrest hlive
      obtain ⟨henc, hout, hleft⟩ := h.encode hlive rest flush
      refine ⟨fed ++ rest, [], (append_nil _).symm, ?_, ?_, ?_, fun hnext => ?_⟩
      · rw [henc, Transducer.run_append]
      · rw [hout, Transducer.run_append]
      · rw [henc]
        exact run_induct h.step hP rest
      · exact (hleft.resolve_right (ne_false_of_eq_true hnext)).symm
    | false =>
      rw [Virtual.encode_of_not_live hlive]
      exact ⟨fed, rest, rfl, rfl, append_nil _, hP,
        fun hnext => absurd (hlive.symm.trans hnext) nofun⟩

theorem ReadsBytes.transparent (h : ReadsBytes m loop P) (hstart : P start) :
    (Virtual.ofLoop m loop).Transparent start where
  independent := by
    intro data e inbuf out hfed
    obtain ⟨fed, rest, rfl, he, rfl, hP, hrest⟩ := h.fed hstart hfed
    have hbuf : (Virtual.ofLoop m loop).drain e inbuf = (Virtual.ofLoop m loop).drain e rest := by
      cases hlive : e.live with
      | true => rw [hrest hlive]
      | false => simp only [Virtual.drain, Virtual.encode_of_not_live hlive]
    rw [hbuf, h.drain_eq hP, h.drain_eq hstart, Transducer.run_append, he, append_assoc]
  settles := by
    intro data e inbuf out _
    cases hlive : e.live with
    | true => exact (h.encode hlive inbuf true).2.2
    | false =>
      rw [Virtual.encode_of_not_live hlive]
      exact .inr hlive

end

def lift (f : σ → ω) (e : WvEncoder σ) : WvEncoder ω := ⟨e.okay, e.finished, f e.self⟩

def Encoded.lift (f : σ → ω) (r : Encoded (WvEncoder σ)) : Encoded (WvEncoder ω) :=
  { r with enc := r.enc.lift f }

/-- The encoders of two classes, each with its own virtual functions. -/
def Virtual.sum (v : Virtual σ) (w : Virtual τ) : Virtual (σ ⊕ τ) where
  _encode e inbuf flush :=
    match e.self with
    | .inl s => (v._encode { e with self := s } inbuf flush).lift Sum.inl
    | .inr s => (w._encode { e with self := s } inbuf flush).lift Sum.inr
  _finish e :=
    match e.self with
    | .inl s => (v._finish { e with self := s }).lift Sum.inl
    | .inr s => (w._finish { e with self := s }).lift Sum.inr

structure Embeds (v : Virtual σ) (u : Virtual ω) (f : σ → ω) : Prop where
  encode : ∀ e inbuf flush, u._encode (lift f e) inbuf flush = (v._encode e inbuf flush).lift f
  finish : ∀ e, u._finish (lift f e) = (v._finish e).lift f

section

variable {v : Virtual σ} {w : Virtual τ} {u : Virtual ω} {f : σ → ω} {start : WvEncoder σ}

theorem embeds_inl : Embeds v (v.sum w) Sum.inl := ⟨fun _ _ _ => rfl, fun _ => rfl⟩

theorem embeds_inr : Embeds w (v.sum w) Sum.inr := ⟨fun _ _ _ => rfl, fun _ => rfl⟩

theorem Embeds.encode_lift (h : Embeds v u f) (e : WvEncoder σ) (inbuf : Str) (flush : Bool) :
    u.encode (lift f e) inbuf flush = (v.encode e inbuf flush).lift f := by
  rw [Virtual.encode, Virtual.encode, h.encode]
  show (if e.live && _ then _ else _) = _
  split <;> rfl

theorem Embeds.drain_lift (h : Embeds v u f) (e : WvEncoder σ) (inbuf : Str) :
    u.drain (lift f e) inbuf = v.drain e inbuf := by
  have hfinish : ∀ e, (u.finish (lift f e)).out = (v.finish e).out := by
    intro e
    rw [Virtual.finish, Virtual.finish, h.finish]
    show (if e.live then _ else _ : Encoded (WvEncoder ω)).out = _
    split <;> rfl
  rw [Virtual.drain, Virtual.drain, h.encode_lift]
  exact congrArg (_ ++ ·) (hfinish _)

theorem Embeds.fed {data inbuf out : Str} {e' : WvEncoder ω} (h : Embeds v u f)
    (hfed : u.Fed (lift f start) data e' inbuf out) :
    ∃ e, e' = lift f e ∧ v.Fed start data e inbuf out := by
  induction hfed with
  | start => exact ⟨start, rfl, .start⟩
  | put _ chunk ih =>
    obtain ⟨e, rfl, ih⟩ := ih
    exact ⟨e, rfl, ih.put chunk⟩
  | @encode data e' inbuf out _ flush ih =>
    obtain ⟨e, rfl, ih⟩ := ih
    rw [h.encode_lift]
    exact ⟨_, rfl, ih.encode flush⟩

theorem Embeds.transparent (h : Embeds v u f) (hstart : v.Transparent start) :
    u.Transparent (lift f start) where
  independent := by
    intro data e' inbuf out hfed
    obtain ⟨e, rfl, hown⟩ := h.fed hfed
    rw [h.drain_lift, h.drain_lift]
    exact hstart.independent _ _ _ _ hown
  settles := by
    intro data e' inbuf out hfed
    obtain ⟨e, rfl, hown⟩ := h.fed hfed
    rw [h.encode_lift]
    exact hstart.settles _ _ _ _ hown

end

section

variable {m : Methods σ} {m' : Methods τ} {loop : Transducer (WvEncoder σ) Byte Byte}
  {loop' : Transducer (WvEncoder τ) Byte Byte} {P : WvEncoder σ → Prop} {Q : WvEncoder τ → Prop}
  {R : WvEncoder σ → WvEncoder τ → Str → Prop} {e : WvEncoder σ} {d : WvEncoder τ}

theorem ReadsBytes.decodes (h : ReadsBytes m loop P) (h' : ReadsBytes m' loop' Q)
    (hstep : ∀ s t pend a, R s t pend → ∃ pend',
      R (loop.step s a).1 (loop'.run t (loop.step s a).2).1 pend' ∧
        pend ++ [a] = (loop'.run t (loop.step s a).2).2 ++ pend')
    (hend : ∀ s t pend, R s t pend → (loop'.run t (ending m s)).2 = pend)
    (hsilent : ∀ t, ending m' t = []) (he : P e) (hd : Q d) (hR : R e d []) (data : Str) :
    (Virtual.ofLoop m' loop').drain d ((Virtual.ofLoop m loop).drain e data) = data := by
  obtain ⟨pend, hlast, hout⟩ := Transducer.decodes hstep hR data
  rw [h'.drain_eq hd, h.drain_eq he, Transducer.run_append, hsilent, append_nil]
  rw [hend _ _ _ hlast]
  exact hout.symm

end

end WvEncoder

open WvEncoder

/-- An encoder and its decoder. -/
structure Codec (v : Virtual ω) (w : Virtual τ) where
  encoder : WvEncoder ω
  decoder : WvEncoder τ
  encodes : v.Transparent encoder
  reads : w.Transparent decoder
  decodes : ∀ data, w.drain decoder (v.drain encoder data) = data

namespace Codec

def encoders : Virtual (WvHexEncoder ⊕ WvBase64Encoder) :=
  .sum (.ofLoop WvHexEncoder.methods WvHexEncoder.loop)
    (.ofLoop methods loop)

def decoders : Virtual (WvHexDecoder ⊕ WvBase64Decoder) :=
  .sum (.ofLoop WvHexDecoder.methods WvHexDecoder.loop)
    (.ofLoop WvBase64Decoder.methods WvBase64Decoder.loop)

theorem hex_encoder : ReadsBytes WvHexEncoder.methods WvHexEncoder.loop (·.live = true) where
  enc_eq _ _ _ := rfl
  out_eq _ _ _ := rfl
  step _ _ h := h
  stop _ _ h := h
  dead _ h hdead := absurd (hdead.symm.trans h) nofun

theorem hex_decoder :
    ReadsBytes WvHexDecoder.methods WvHexDecoder.loop (·.finished = false) where
  enc_eq _ _ _ := rfl
  out_eq _ _ _ := rfl
  step := Hex.unfinished_step
  stop e c h := by
    rw [Hex.stopped_step h]
    exact h
  dead e h hdead s := by
    have hokay : e.okay = false := by simpa [live, h] using hdead
    rw [run_stopped (Hex.stopped_step hokay)]
    exact ⟨rfl, if_neg (by simp [hdead])⟩

theorem base64_encoder :
    ReadsBytes methods loop (·.live = true) where
  enc_eq _ _ _ := rfl
  out_eq _ _ _ := rfl
  step := Base64.live_step
  stop e c h := by
    show (WvBase64Encoder.step e c).1.okay = false
    rw [WvBase64Encoder.step]
    split <;> exact h
  dead _ h hdead := absurd (hdead.symm.trans h) nofun

theorem base64_decoder :
    ReadsBytes WvBase64Decoder.methods WvBase64Decoder.loop Base64.Padded where
  enc_eq _ _ _ := rfl
  out_eq _ _ _ := rfl
  step := Base64.padded_step
  stop e c h := by
    show (WvBase64Decoder.step e c).1.okay = false
    rw [WvBase64Decoder.step, h]
    exact h
  dead e h hdead s := by
    refine ⟨run_silent Base64.silent_step ?_ s, ite_self _⟩
    cases hokay : e.okay with
    | false => exact .inl hokay
    | true => exact .inr (h (by simpa [live, hokay] using hdead))

def hex (use_uppercase : Bool) : Codec encoders decoders where
  encoder := lift Sum.inl (WvHexEncoder.new use_uppercase)
  decoder := lift Sum.inl WvHexDecoder.new
  encodes := embeds_inl.transparent (hex_encoder.transparent rfl)
  reads := embeds_inl.transparent (hex_decoder.transparent rfl)
  decodes data := by
    rw [encoders, decoders, embeds_inl.drain_lift, embeds_inl.drain_lift]
    refine hex_encoder.decodes hex_decoder (@Hex.tracks_step use_uppercase) ?_
      (fun _ => ite_self _) rfl rfl ⟨rfl, rfl, rfl, rfl⟩ data
    rintro s t pend ⟨rfl, -, -, rfl⟩
    rfl

def base64 : Codec encoders decoders where
  encoder := lift Sum.inr WvBase64Encoder.new
  decoder := lift Sum.inr WvBase64Decoder.new
  encodes := embeds_inr.transparent (base64_encoder.transparent rfl)
  reads := embeds_inr.transparent (base64_decoder.transparent nofun)
  decodes data := by
    rw [encoders, decoders, embeds_inr.drain_lift, embeds_inr.drain_lift]
    refine base64_encoder.decodes base64_decoder Base64.tracks_step ?_ (fun _ => ite_self _) rfl
      (fun h => by cases h) Base64.Tracks.atBit0 data
    intro s t pend h
    rw [← Base64.decode_finish h]
    cases h <;> rfl

variable {v : Virtual ω} {w : Virtual τ} (codecs : List (Codec v w))

def encoderChain : WvEncoderChain ω := .new (codecs.map encoder)

def decoderChain : WvEncoderChain τ := .new (codecs.reverse.map decoder)

theorem decodes_inTurn (data : Str) :
    inTurn w.drain (codecs.reverse.map decoder)
      (inTurn v.drain (codecs.map encoder) data) = data := by
  induction codecs generalizing data with
  | nil => rfl
  | cons c codecs ih =>
    rw [reverse_cons, map_append, inTurn, foldl_append]
    exact (congrArg (w.drain c.decoder) (ih _)).trans (c.decodes data)

theorem encoders_transparent : ∀ e ∈ codecs.map encoder, v.Transparent e :=
  forall_mem_map.mpr fun c _ => c.encodes

theorem decoders_transparent : ∀ e ∈ codecs.reverse.map decoder, w.Transparent e :=
  forall_mem_map.mpr fun c _ => c.reads

/-- However the data come to the encoders, and what these put out to the decoders, and wherever
the chains are flushed, the decoders put out the data. -/
theorem stack_decodes {data inbuf out inbuf' out' : Str} {e : WvEncoderChain ω}
    {d : WvEncoderChain τ} (he : (chain v).Fed (encoderChain codecs) data e inbuf out)
    (hd : (chain w).Fed (decoderChain codecs)
      (out ++ (chain v).drain e inbuf) d inbuf' out') :
    out' ++ (chain w).drain d inbuf' = data := by
  rw [drain_fed (encoders_transparent codecs) he] at hd
  rw [drain_fed (decoders_transparent codecs) hd]
  exact decodes_inTurn codecs data

/-- Two bytes in two parts through base64 and hex. -/
theorem stack_decodes_hex_base64 :
    let v := chain encoders
    let w := chain decoders
    let e := v.encode (encoderChain [base64, hex true]) [97] false
    let text := e.out ++ v.drain e.enc [98]
    (w.drain (decoderChain [base64, hex true]) text) = [97, 98] :=
  stack_decodes [base64, hex true] ((Virtual.Fed.start.put [97]).encode false |>.put [98])
    (.put .start _)

end Codec

end WvStreams
