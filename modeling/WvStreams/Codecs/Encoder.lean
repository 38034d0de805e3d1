import WvStreams.Lib.Transducer
import WvStreams.Strings.WvString

/-!
# `WvEncoder`

The base class of the codecs, with an output buffer that has room for everything. A subclass is
given by its virtual methods (`Methods`). `encodeChunks` is the use of an encoder that the
codecs are about: data that comes in chunks, without flushing.
-/

namespace WvStreams

open Lib

theorem shift_or (a : Nat) {b k : Nat} (h : b < 2 ^ k) : a <<< k ||| b = a * 2 ^ k + b := by
  rw [← Nat.shiftLeft_add_eq_or_of_lt h, Nat.shiftLeft_eq]

theorem and_low (x k : Nat) : x &&& (2 ^ k - 1) = x % 2 ^ k := Nat.and_two_pow_sub_one_eq_mod x k

structure WvEncoder (σ : Type) where
  okay : Bool := true
  finished : Bool := false
  self : σ

namespace WvEncoder

variable {σ : Type}

/-- The methods of a subclass: what becomes of the encoder, what is written, and the value that
is returned. -/
structure Methods (σ : Type) where
  _encode : WvEncoder σ → Str → Bool → WvEncoder σ × Str × Bool
  _finish : WvEncoder σ → Str × Bool := fun _ => ([], true)

/-- The encoder takes data. -/
def live (e : WvEncoder σ) : Bool := e.okay && !e.finished

def setfinished (e : WvEncoder σ) : WvEncoder σ := { e with finished := true }

def setnotok (e : WvEncoder σ) : WvEncoder σ := { e with okay := false }

def finish (m : Methods σ) (e : WvEncoder σ) : WvEncoder σ × Str × Bool :=
  (e.setfinished, if e.live then m._finish e else ([], false))

def encode (m : Methods σ) (e : WvEncoder σ) (inbuf : Str) (flush _finish : Bool) :
    WvEncoder σ × Str × Bool :=
  let (e, out, success) :=
    if e.live && (!inbuf.isEmpty || flush) then m._encode e inbuf flush else (e, [], false)
  if _finish then
    let (e, more, done) := finish m e
    (e, out ++ more, done && success)
  else (e, out, success)

/-- The output for data in chunks, encoded without flushing. -/
def encodeChunks (m : Methods σ) (e : WvEncoder σ) : List Str → WvEncoder σ × Str
  | [] => (e, [])
  | chunk :: chunks =>
    let (e, out, _) := e.encode m chunk false false
    let (e, more) := e.encodeChunks m chunks
    (e, out ++ more)

/-- Data in chunks, the last of which is flushed: what becomes of the encoder, all that is written,
and the value that the last call returns. -/
def flushChunks (m : Methods σ) (e : WvEncoder σ) (chunks : List Str) (last : Str) :
    WvEncoder σ × Str × Bool :=
  let (e, out) := e.encodeChunks m chunks
  let (e, more, success) := e.encode m last true false
  (e, out ++ more, success)

/-- All that is written for the data, with the end that `finish` writes. -/
def finishChunks (m : Methods σ) (e : WvEncoder σ) (chunks : List Str) : Str :=
  let (e, out) := e.encodeChunks m chunks
  out ++ (e.finish m).2.1

theorem encodeChunks_eq_feed {m : Methods σ} {t : Transducer (WvEncoder σ) Byte Byte}
    {P : WvEncoder σ → Prop} (hstep : ∀ e a, P e → P (t.step e a).1)
    (h : ∀ e s, P e → ((m._encode e s false).1, (m._encode e s false).2.1) = t.run e s)
    {e : WvEncoder σ} (he : P e) (chunks : List Str) :
    e.encodeChunks m chunks = t.feed live e chunks := by
  induction chunks generalizing e with
  | nil => rfl
  | cons chunk chunks ih =>
    simp only [encodeChunks, encode, Transducer.feed, Bool.or_false, Bool.false_eq_true, if_false]
    split
    · have hnext := Transducer.run_induct hstep he chunk
      rw [← h e chunk he] at hnext ⊢
      rw [ih hnext]
    · rw [ih he]

end WvEncoder

end WvStreams
