import WvStreams.Codecs.Encoder

/-!
# `WvEncoderChain`

A chain sends its data through a list of encoders, each of which has a buffer for what it wrote.
Unlike in `WvEncoder`, an encoder may leave data in its input buffer here, so that data that comes
later is put behind them. `Fed` says what becomes of an encoder that is given data in this way,
and `Independent` that what it writes in the end does not depend on how the data came.
-/

namespace WvStreams

open List

namespace WvEncoder

variable {σ : Type}

/-- What a call leaves behind: the encoder, the rest of the input buffer, what was put into the
output buffer, and the value that was returned. -/
structure Encoded (σ : Type) where
  enc : σ
  rest : Str
  out : Str
  success : Bool

/-- The virtual functions of a subclass. -/
structure Virtual (σ : Type) where
  _encode : WvEncoder σ → Str → Bool → Encoded (WvEncoder σ)
  _finish : WvEncoder σ → Encoded (WvEncoder σ)
  _isok : σ → Bool := fun _ => true
  _isfinished : σ → Bool := fun _ => false

namespace Virtual

variable (v : Virtual σ)

def isok (e : WvEncoder σ) : Bool := e.okay && v._isok e.self

def isfinished (e : WvEncoder σ) : Bool := e.finished || v._isfinished e.self

def encode (e : WvEncoder σ) (inbuf : Str) (flush : Bool) : Encoded (WvEncoder σ) :=
  if e.live && (!inbuf.isEmpty || flush) then v._encode e inbuf flush else ⟨e, inbuf, [], false⟩

def finish (e : WvEncoder σ) : Encoded (WvEncoder σ) :=
  let r := if e.live then v._finish e else ⟨e, [], [], false⟩
  { r with enc := r.enc.setfinished }

/-- What is still written when the input buffer is flushed and the encoder finished. -/
def drain (e : WvEncoder σ) (inbuf : Str) : Str :=
  let r := v.encode e inbuf true
  r.out ++ (v.finish r.enc).out

/-- What becomes of an encoder that is given data: the encoder, what is in its input buffer, and
what it has written. -/
inductive Fed (start : WvEncoder σ) : Str → WvEncoder σ → Str → Str → Prop where
  | start : Fed start [] start [] []
  | put {data : Str} {e : WvEncoder σ} {inbuf out : Str} (h : Fed start data e inbuf out)
      (chunk : Str) : Fed start (data ++ chunk) e (inbuf ++ chunk) out
  | encode {data : Str} {e : WvEncoder σ} {inbuf out : Str} (h : Fed start data e inbuf out)
      (flush : Bool) :
      Fed start data (v.encode e inbuf flush).enc (v.encode e inbuf flush).rest
        (out ++ (v.encode e inbuf flush).out)

/-- However the data come, the same is written when the encoder is finished. -/
def Independent (start : WvEncoder σ) : Prop :=
  ∀ data e inbuf out, v.Fed start data e inbuf out → out ++ v.drain e inbuf = v.drain start data

variable {v}

variable {e : WvEncoder σ}

theorem encode_of_not_live (h : e.live = false) (inbuf : Str) (flush : Bool) :
    v.encode e inbuf flush = ⟨e, inbuf, [], false⟩ := by
  rw [encode, h]
  rfl

theorem finish_of_not_live (h : e.live = false) : v.finish e = ⟨e.setfinished, [], [], false⟩ := by
  rw [finish, h]
  rfl

theorem not_live_of_finished (h : e.finished = true) : e.live = false := by
  rw [live, h, Bool.not_true, Bool.and_false]

theorem Fed.out_prefix {start : WvEncoder σ} {data inbuf out : Str} (hi : v.Independent start)
    (h : v.Fed start data e inbuf out) (more : Str) : out <+: v.drain start (data ++ more) := by
  rw [← hi _ _ _ _ (h.put more)]
  exact prefix_append out _

end Virtual

end WvEncoder

/-- An encoder of a chain, with the buffer for what it wrote. -/
structure ChainElem (ω : Type) where
  enc : WvEncoder ω
  out : Str := []

/-- The members of a chain; `last_run` is a place in the list. -/
structure Chain (ω : Type) where
  encoders : List (ChainElem ω)
  last_run : Option Nat := none

abbrev WvEncoderChain (ω : Type) : Type := WvEncoder (Chain ω)

namespace WvEncoderChain

open WvEncoder (Encoded Virtual)

variable {ω : Type} (v : Virtual ω)

def new (encoders : List (WvEncoder ω)) : WvEncoderChain ω where
  self := { encoders := encoders.map fun enc => { enc } }

/-- One encoder of the loop of `do_encode`, which reads what is in front of it in `tmpin`. -/
def advance (flush finish : Bool) (elem : ChainElem ω) (tmpin : Str) : Encoded (ChainElem ω) :=
  let r := v.encode elem.enc tmpin flush
  let f := if finish then v.finish r.enc else ⟨r.enc, [], [], true⟩
  ⟨⟨f.enc, elem.out ++ r.out ++ f.out⟩, r.rest, [], r.success && f.success⟩

/-- The loop of `do_encode`. What the last encoder wrote is merged into `out`. -/
def runLoop (flush finish : Bool) : List (ChainElem ω) → Str → Encoded (List (ChainElem ω))
  | [], tmpin => ⟨[], [], tmpin, true⟩
  | elem :: encoders, tmpin =>
    let r := advance v flush finish elem tmpin
    let s := runLoop flush finish encoders r.enc.out
    ⟨{ r.enc with out := s.rest } :: s.enc, r.rest, s.out, r.success && s.success⟩

/-- How many encoders `do_encode` passes over. -/
def passed : Option Nat → Nat
  | none => 0
  | some i => i + 1

def do_encode (c : Chain ω) (inbuf : Str) (start_after : Option Nat) (flush finish : Bool) :
    Encoded (Chain ω) :=
  let start := passed start_after
  let r := runLoop v flush finish (c.encoders.drop start) inbuf
  { enc :=
      { encoders := c.encoders.take start ++ r.enc
        last_run := if r.enc.isEmpty then start_after else some (start + r.enc.length - 1) }
    rest := r.rest
    out := r.out
    success := r.success }

def chain : Virtual (Chain ω) where
  _encode e inbuf flush :=
    let r := do_encode v e.self inbuf none flush false
    { r with enc := { e with self := r.enc } }
  _finish e :=
    let r := do_encode v e.self [] none true true
    { r with enc := { e with self := r.enc } }
  _isok c := c.encoders.all fun elem => v.isok elem.enc
  _isfinished c := c.encoders.any fun elem => v.isfinished elem.enc

/-- `continue_encode` does not look at the flags of the chain. -/
def continue_encode (e : WvEncoderChain ω) (inbuf : Str) : Encoded (WvEncoderChain ω) :=
  let r := do_encode v e.self inbuf e.self.last_run false false
  { r with enc := { e with self := r.enc } }

def Ran (e : WvEncoderChain ω) : Prop :=
  passed e.self.last_run = e.self.encoders.length

def Unused (e : WvEncoderChain ω) : Prop :=
  e.self.last_run = none ∧ ∀ elem ∈ e.self.encoders, elem.out = []

/-- Two chains that differ in `last_run` at most. -/
def Alike (e e' : WvEncoderChain ω) : Prop :=
  e.okay = e'.okay ∧ e.finished = e'.finished ∧ e.self.encoders = e'.self.encoders

theorem unused_new (encoders : List (WvEncoder ω)) : Unused (new encoders) := by
  refine ⟨rfl, fun elem helem => ?_⟩
  obtain ⟨enc, -, rfl⟩ := mem_map.mp helem
  rfl

variable {v}

variable {e e' : WvEncoderChain ω}

theorem continue_encode_of_ran (h : Ran e) (inbuf : Str) :
    continue_encode v e inbuf = ⟨e, [], inbuf, true⟩ := by
  have hrun : passed e.self.last_run = e.self.encoders.length := h
  simp [continue_encode, do_encode, hrun, runLoop]

theorem ran_of_encoders (e : WvEncoderChain ω) (encoders : List (ChainElem ω)) :
    Ran { e with self :=
      { encoders, last_run := if encoders.isEmpty then none else some (encoders.length - 1) } } := by
  cases encoders with
  | nil => rfl
  | cons elem encoders => rfl

theorem runLoop_nothing {encoders : List (ChainElem ω)} (h : ∀ elem ∈ encoders, elem.out = []) :
    runLoop v false false encoders [] = ⟨encoders, [], [], encoders.isEmpty⟩ := by
  induction encoders with
  | nil => rfl
  | cons elem encoders ih =>
    have hout : elem.out = [] := h elem mem_cons_self
    have hskip : v.encode elem.enc [] false = ⟨elem.enc, [], [], false⟩ := by
      simp [Virtual.encode]
    have hadvance : advance v false false elem [] = ⟨elem, [], [], false⟩ := by
      obtain ⟨enc, out⟩ := elem
      cases hout
      simp [advance, hskip]
    rw [runLoop, hadvance]
    rw [hout, ih fun elem' helem => h elem' (mem_cons_of_mem elem helem)]
    obtain ⟨enc, out⟩ := elem
    cases hout
    rfl

theorem continue_encode_of_unused (h : Unused e) :
    Alike (continue_encode v e []).enc e ∧ (continue_encode v e []).rest = [] ∧
      (continue_encode v e []).out = [] ∧ Ran (continue_encode v e []).enc := by
  obtain ⟨hnone, hout⟩ := h
  have hloop := runLoop_nothing (v := v) hout
  simp only [continue_encode, do_encode, hnone, passed, drop_zero, hloop, take_zero,
    nil_append, Nat.zero_add]
  exact ⟨⟨rfl, rfl, rfl⟩, trivial, trivial, ran_of_encoders e _⟩

theorem ran_do_encode (e : WvEncoderChain ω) (inbuf : Str) (flush finish : Bool) :
    Ran { e with self := (do_encode v e.self inbuf none flush finish).enc } := by
  simp only [do_encode, passed, drop_zero, take_zero, nil_append, Nat.zero_add]
  exact ran_of_encoders e _

theorem encode_ran (e : WvEncoderChain ω) (inbuf : Str) (flush : Bool) :
    Ran ((chain v).encode e inbuf flush).enc ∨
      (chain v).encode e inbuf flush = ⟨e, inbuf, [], false⟩ := by
  rw [Virtual.encode]
  split
  · exact .inl (ran_do_encode e inbuf flush false)
  · exact .inr rfl

theorem finish_ran (e : WvEncoderChain ω) :
    Ran ((chain v).finish e).enc ∨ (chain v).finish e = ⟨e.setfinished, [], [], false⟩ := by
  rw [Virtual.finish]
  split
  · exact .inl (ran_do_encode e [] true true)
  · exact .inr rfl

theorem Ran.encode {e : WvEncoderChain ω} (h : Ran e) (inbuf : Str) (flush : Bool) :
    Ran ((chain v).encode e inbuf flush).enc := by
  rcases encode_ran (v := v) e inbuf flush with hran | hskip
  · exact hran
  · rw [hskip]
    exact h

theorem drain_ran (e : WvEncoderChain ω) (inbuf : Str) :
    Ran ((chain v).finish ((chain v).encode e inbuf true).enc).enc ∨
      ((chain v).finish ((chain v).encode e inbuf true).enc).enc = e.setfinished ∧
        (chain v).drain e inbuf = [] := by
  rw [Virtual.drain]
  rcases encode_ran (v := v) e inbuf true with hran | hskip
  · rcases finish_ran (v := v) ((chain v).encode e inbuf true).enc with hran' | hskip'
    · exact .inl hran'
    · rw [hskip']
      exact .inl hran
  · rw [hskip]
    rcases finish_ran (v := v) e with hran' | hskip'
    · exact .inl hran'
    · rw [hskip']
      exact .inr ⟨rfl, rfl⟩

theorem encode_finished (e : WvEncoderChain ω) (inbuf : Str) (flush : Bool) :
    ((chain v).encode e inbuf flush).enc.finished = e.finished := by
  rw [Virtual.encode]
  split
  · rfl
  · rfl

theorem Alike.refl (e : WvEncoderChain ω) : Alike e e := ⟨rfl, rfl, rfl⟩

theorem Alike.trans {e'' : WvEncoderChain ω} (h : Alike e e') (h' : Alike e' e'') :
    Alike e e'' := ⟨h.1.trans h'.1, h.2.1.trans h'.2.1, h.2.2.trans h'.2.2⟩

theorem Alike.symm (h : Alike e e') : Alike e' e :=
  ⟨h.1.symm, h.2.1.symm, h.2.2.symm⟩

theorem continue_encode_spec {inbuf : Str} (h : Ran e ∨ Unused e ∧ inbuf = []) :
    Alike (continue_encode v e inbuf).enc e ∧ (continue_encode v e inbuf).out = inbuf ∧
      Ran (continue_encode v e inbuf).enc := by
  rcases h with hran | ⟨hunused, rfl⟩
  · rw [continue_encode_of_ran hran]
    exact ⟨Alike.refl e, rfl, hran⟩
  · obtain ⟨halike, -, hout, hran⟩ := continue_encode_of_unused (v := v) hunused
    exact ⟨halike, hout, hran⟩

theorem Alike.isok (h : Alike e e') : (chain v).isok e = (chain v).isok e' := by
  rw [Virtual.isok, Virtual.isok, h.1]
  simp only [chain, h.2.2]

theorem Alike.live (h : Alike e e') : e.live = e'.live := by
  rw [WvEncoder.live, WvEncoder.live, h.1, h.2.1]

theorem Alike.encode {e e' : WvEncoderChain ω} (h : Alike e e') (inbuf : Str) (flush : Bool) :
    Alike ((chain v).encode e inbuf flush).enc ((chain v).encode e' inbuf flush).enc ∧
      ((chain v).encode e inbuf flush).rest = ((chain v).encode e' inbuf flush).rest ∧
      ((chain v).encode e inbuf flush).out = ((chain v).encode e' inbuf flush).out := by
  rw [Virtual.encode, Virtual.encode, h.live]
  split
  · simp only [chain, do_encode, h.2.2]
    exact ⟨⟨h.1, h.2.1, rfl⟩, trivial, trivial⟩
  · exact ⟨h, rfl, rfl⟩

theorem Alike.finish (h : Alike e e') : ((chain v).finish e).out = ((chain v).finish e').out := by
  rw [Virtual.finish, Virtual.finish, h.live]
  split
  · simp only [chain, do_encode, h.2.2]
  · rfl

theorem Alike.drain (h : Alike e e') (inbuf : Str) :
    (chain v).drain e inbuf = (chain v).drain e' inbuf := by
  obtain ⟨henc, -, hout⟩ := h.encode (v := v) inbuf true
  rw [Virtual.drain, Virtual.drain, hout, henc.finish]

end WvEncoderChain

end WvStreams
