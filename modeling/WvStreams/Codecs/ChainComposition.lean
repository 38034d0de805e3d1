import WvStreams.Codecs.EncoderChain

/-!
# What an encoder chain writes

A chain writes what its encoders write one after the other, each of them for all that the one in
front of it wrote. `Uniform` says of one encoder that only all of its data count, and not how they
were cut into calls, and `Consumes` that it leaves nothing in its input buffer.
`passAll_uniform` carries this from the encoders to the chain.
-/

namespace WvStreams

open List

namespace WvEncoder

namespace Virtual

variable {σ : Type} (v : Virtual σ)

/-- Calls of `encode` with their flush flags: what becomes of the encoder, and what the calls
wrote. -/
def feed (e : WvEncoder σ) : List (Str × Bool) → WvEncoder σ × List (Str × Bool)
  | [] => (e, [])
  | (inbuf, flush) :: calls =>
    let r := v.encode e inbuf flush
    let (e, outs) := feed r.enc calls
    (e, (r.out, flush) :: outs)

def data (calls : List (Str × Bool)) : Str := (calls.map Prod.fst).flatten

def flushed (e : WvEncoder σ) (inbuf : Str) : Str := (v.encode e inbuf true).out

def Consumes (start : WvEncoder σ) : Prop :=
  ∀ calls inbuf flush, (v.encode (v.feed start calls).1 inbuf flush).rest = []

/-- However the data come, by calls with the allowed flags, the same is written up to the end that
`close` makes. -/
def Uniform (close : WvEncoder σ → Str → Str) (allowed : List Bool → Prop)
    (start : WvEncoder σ) : Prop :=
  ∀ calls, allowed (calls.map Prod.snd) → ∀ last,
    data (v.feed start calls).2 ++ close (v.feed start calls).1 last =
      close start (data calls ++ last)

def Unflushed (flags : List Bool) : Prop := ∀ flush ∈ flags, flush = false

/-- What is written does not depend on how the data are cut into chunks. -/
def ChunkFree (start : WvEncoder σ) : Prop :=
  v.Uniform v.flushed Unflushed start ∧ v.Uniform v.drain Unflushed start

/-- Nor does it depend on where the encoder is flushed before it is finished. -/
def FlushFree (start : WvEncoder σ) : Prop := v.Uniform v.drain (fun _ => True) start

variable {v}

theorem data_cons (call : Str × Bool) (calls : List (Str × Bool)) :
    data (call :: calls) = call.1 ++ data calls := rfl

theorem feed_flags (e : WvEncoder σ) (calls : List (Str × Bool)) :
    (v.feed e calls).2.map Prod.snd = calls.map Prod.snd := by
  induction calls generalizing e with
  | nil => rfl
  | cons call calls ih => exact congrArg (call.2 :: ·) (ih _)

theorem Consumes.encode {start : WvEncoder σ} (h : v.Consumes start) (inbuf : Str) (flush : Bool) :
    v.Consumes (v.encode start inbuf flush).enc := fun calls => h ((inbuf, flush) :: calls)

theorem encode_nothing (e : WvEncoder σ) : v.encode e [] false = ⟨e, [], [], false⟩ := by
  rw [encode]
  exact if_neg (by simp)

end Virtual

end WvEncoder

namespace WvEncoderChain

open WvEncoder (Encoded Virtual)
open WvEncoder.Virtual

variable {ω : Type} (v : Virtual ω)

/-- One call of each encoder, for what the one in front of it wrote. -/
def pass (flush : Bool) : List (WvEncoder ω) → Str → List (WvEncoder ω) × Str
  | [], inbuf => ([], inbuf)
  | e :: encoders, inbuf =>
    let r := v.encode e inbuf flush
    let (encoders, out) := pass flush encoders r.out
    (r.enc :: encoders, out)

def passAll (encoders : List (WvEncoder ω)) : List (Str × Bool) → List (WvEncoder ω) × Str
  | [] => (encoders, [])
  | (inbuf, flush) :: calls =>
    let (encoders, out) := pass v flush encoders inbuf
    let (encoders, more) := passAll encoders calls
    (encoders, out ++ more)

/-- The data go through the encoders one after the other, and each of them ends them in turn. -/
def inTurn (close : WvEncoder ω → Str → Str) (encoders : List (WvEncoder ω)) (data : Str) : Str :=
  encoders.foldl (fun data e => close e data) data

variable {v}

theorem passAll_nil (calls : List (Str × Bool)) : passAll v [] calls = ([], data calls) := by
  induction calls with
  | nil => rfl
  | cons call calls ih =>
    rw [passAll, pass]
    dsimp only
    rw [ih]
    rfl

theorem passAll_cons (e : WvEncoder ω) (encoders : List (WvEncoder ω)) (calls : List (Str × Bool)) :
    passAll v (e :: encoders) calls =
      ((v.feed e calls).1 :: (passAll v encoders (v.feed e calls).2).1,
        (passAll v encoders (v.feed e calls).2).2) := by
  induction calls generalizing e encoders with
  | nil => rfl
  | cons call calls ih =>
    rw [passAll, pass]
    dsimp only
    rw [ih]
    rfl

variable {encoders : List (WvEncoder ω)}

theorem passAll_uniform {close : WvEncoder ω → Str → Str} {allowed : List Bool → Prop}
    (h : ∀ e ∈ encoders, v.Uniform close allowed e)
    {calls : List (Str × Bool)} (hallowed : allowed (calls.map Prod.snd)) (last : Str) :
    (passAll v encoders calls).2 ++ inTurn close (passAll v encoders calls).1 last =
      inTurn close encoders (data calls ++ last) := by
  induction encoders generalizing calls last with
  | nil =>
    rw [passAll_nil]
    rfl
  | cons e encoders ih =>
    obtain ⟨he, hencoders⟩ := forall_mem_cons.mp h
    have hflags : allowed ((v.feed e calls).2.map Prod.snd) := by
      rw [feed_flags]
      exact hallowed
    rw [passAll_cons]
    calc (passAll v encoders (v.feed e calls).2).2 ++
          inTurn close (passAll v encoders (v.feed e calls).2).1 (close (v.feed e calls).1 last)
        = inTurn close encoders (data (v.feed e calls).2 ++ close (v.feed e calls).1 last) :=
          ih hencoders hflags _
      _ = inTurn close encoders (close e (data calls ++ last)) := by rw [he calls hallowed last]

theorem pass_flushed (encoders : List (WvEncoder ω)) (inbuf : Str) :
    (pass v true encoders inbuf).2 = inTurn v.flushed encoders inbuf := by
  induction encoders generalizing inbuf with
  | nil => rfl
  | cons e encoders ih => exact ih _

theorem pass_nothing (encoders : List (WvEncoder ω)) : pass v false encoders [] = (encoders, []) := by
  induction encoders with
  | nil => rfl
  | cons e encoders ih =>
    rw [pass, encode_nothing]
    rw [ih]

theorem consumes_pass (h : ∀ e ∈ encoders, v.Consumes e)
    (flush : Bool) (inbuf : Str) : ∀ e ∈ (pass v flush encoders inbuf).1, v.Consumes e := by
  induction encoders generalizing inbuf with
  | nil => exact h
  | cons e encoders ih =>
    obtain ⟨he, hencoders⟩ := forall_mem_cons.mp h
    exact forall_mem_cons.mpr ⟨he.encode inbuf flush, ih hencoders _⟩

theorem consumes_passAll (h : ∀ e ∈ encoders, v.Consumes e)
    (calls : List (Str × Bool)) : ∀ e ∈ (passAll v encoders calls).1, v.Consumes e := by
  induction calls generalizing encoders with
  | nil => exact h
  | cons call calls ih => exact ih (consumes_pass h call.2 call.1)

/-- A chain that takes data, with these encoders and nothing in their buffers. -/
structure Holds (c : WvEncoderChain ω) (encoders : List (WvEncoder ω)) : Prop where
  live : c.live = true
  encoders_eq : c.self.encoders = encoders.map fun enc => { enc }

theorem holds_new (encoders : List (WvEncoder ω)) : Holds (new encoders) encoders := ⟨rfl, rfl⟩

theorem runLoop_pass (h : ∀ e ∈ encoders, v.Consumes e) (flush : Bool) (inbuf : Str) :
    let r := runLoop v flush false (encoders.map fun enc => { enc }) inbuf
    r.enc = (pass v flush encoders inbuf).1.map (fun enc => { enc }) ∧ r.rest = [] ∧
      r.out = (pass v flush encoders inbuf).2 := by
  induction encoders generalizing inbuf with
  | nil => exact ⟨rfl, rfl, rfl⟩
  | cons e encoders ih =>
    obtain ⟨he, hencoders⟩ := forall_mem_cons.mp h
    obtain ⟨henc, hrest, hout⟩ := ih hencoders (v.encode e inbuf flush).out
    have hbuf : (advance v flush false { enc := e } inbuf).enc.out =
        (v.encode e inbuf flush).out := append_nil _
    rw [map_cons, runLoop]
    rw [hbuf, henc, hrest, hout]
    exact ⟨rfl, he [] inbuf flush, rfl⟩

theorem runLoop_drain (encoders : List (WvEncoder ω)) (inbuf : Str) :
    (runLoop v true true (encoders.map fun enc => { enc }) inbuf).out =
      inTurn v.drain encoders inbuf := by
  induction encoders generalizing inbuf with
  | nil => rfl
  | cons e encoders ih => exact ih _

variable {c : WvEncoderChain ω} {encoders : List (WvEncoder ω)}

theorem chain_encode (hc : Holds c encoders) (h : ∀ e ∈ encoders, v.Consumes e) (inbuf : Str)
    (flush : Bool) :
    Holds ((chain v).encode c inbuf flush).enc (pass v flush encoders inbuf).1 ∧
      ((chain v).encode c inbuf flush).out = (pass v flush encoders inbuf).2 := by
  by_cases hskip : inbuf = [] ∧ flush = false
  · obtain ⟨rfl, rfl⟩ := hskip
    rw [encode_nothing, pass_nothing]
    exact ⟨hc, rfl⟩
  · have hcall : (c.live && (!inbuf.isEmpty || flush)) = true := by
      rw [hc.live]
      cases inbuf with
      | nil => simpa using hskip
      | cons b inbuf => rfl
    obtain ⟨henc, -, hout⟩ := runLoop_pass h flush inbuf
    rw [Virtual.encode, if_pos hcall]
    constructor
    · refine ⟨hc.live, ?_⟩
      simp only [chain, do_encode, passed, drop_zero, take_zero, nil_append, hc.encoders_eq]
      exact henc
    · simp only [chain, do_encode, passed, drop_zero, hc.encoders_eq]
      exact hout

theorem chain_feed (hc : Holds c encoders) (h : ∀ e ∈ encoders, v.Consumes e)
    (calls : List (Str × Bool)) :
    Holds ((chain v).feed c calls).1 (passAll v encoders calls).1 ∧
      data ((chain v).feed c calls).2 = (passAll v encoders calls).2 := by
  induction calls generalizing c encoders with
  | nil => exact ⟨hc, rfl⟩
  | cons call calls ih =>
    obtain ⟨hholds, hout⟩ := chain_encode hc h call.1 call.2
    obtain ⟨hholds', hmore⟩ := ih hholds (consumes_pass h call.2 call.1)
    refine ⟨hholds', ?_⟩
    rw [Virtual.feed, data_cons]
    rw [hout, hmore]
    rfl

theorem chain_flushed (hc : Holds c encoders) (h : ∀ e ∈ encoders, v.Consumes e) (inbuf : Str) :
    (chain v).flushed c inbuf = inTurn v.flushed encoders inbuf :=
  (chain_encode hc h inbuf true).2.trans (pass_flushed encoders inbuf)

theorem chain_finish (hc : Holds c encoders) :
    ((chain v).finish c).out = inTurn v.drain encoders [] := by
  rw [Virtual.finish, if_pos hc.live]
  simp only [chain, do_encode, passed, drop_zero, hc.encoders_eq]
  exact runLoop_drain encoders []

def plain (chunks : List Str) : List (Str × Bool) := chunks.map fun chunk => (chunk, false)

theorem data_plain (chunks : List Str) : data (plain chunks) = chunks.flatten := by
  rw [data, plain, map_map]
  congr 1
  exact map_id chunks

theorem unflushed_plain (chunks : List Str) : Unflushed ((plain chunks).map Prod.snd) := by
  intro flush hflush
  rw [plain, map_map] at hflush
  obtain ⟨chunk, -, rfl⟩ := mem_map.mp hflush
  rfl

/-- Data that come to a chain in chunks: with a flush behind them each encoder is flushed in turn,
and when the chain is finished each of them is flushed and finished. That is so for flushes
between the chunks, too, if none of the encoders writes anything else because of them. -/
theorem encodes_in_turn (hconsumes : ∀ e ∈ encoders, v.Consumes e) :
    ((∀ e ∈ encoders, v.ChunkFree e) → ∀ chunks last,
      let r := (chain v).feed (new encoders) (plain chunks)
      data r.2 ++ (chain v).flushed r.1 last =
          inTurn v.flushed encoders (chunks.flatten ++ last) ∧
        data r.2 ++ ((chain v).finish r.1).out = inTurn v.drain encoders chunks.flatten) ∧
      ((∀ e ∈ encoders, v.FlushFree e) → ∀ calls, let r := (chain v).feed (new encoders) calls
        data r.2 ++ ((chain v).finish r.1).out = inTurn v.drain encoders (data calls)) := by
  constructor
  · intro hfree chunks last
    obtain ⟨hholds, hout⟩ := chain_feed (holds_new encoders) hconsumes (plain chunks)
    have hflags := unflushed_plain chunks
    dsimp only
    constructor
    · rw [hout, chain_flushed hholds (consumes_passAll hconsumes _),
        passAll_uniform (fun e he => (hfree e he).1) hflags, data_plain]
    · rw [hout, chain_finish hholds, passAll_uniform (fun e he => (hfree e he).2) hflags,
        data_plain, List.append_nil]
  · intro hfree calls
    obtain ⟨hholds, hout⟩ := chain_feed (holds_new encoders) hconsumes calls
    dsimp only
    rw [hout, chain_finish hholds, passAll_uniform hfree trivial, List.append_nil]

/-- It writes its data as they are, and `!` when it is finished. -/
def marking : Virtual Unit where
  _encode e inbuf _ := ⟨e, [], inbuf, true⟩
  _finish e := ⟨e, [], [33], true⟩

def mark : WvEncoder Unit := { self := () }

theorem mark_encode (inbuf : Str) (flush : Bool) :
    (marking.encode mark inbuf flush).enc = mark ∧ (marking.encode mark inbuf flush).rest = [] ∧
        (marking.encode mark inbuf flush).out = inbuf := by
  cases inbuf with
  | nil => cases flush <;> exact ⟨rfl, rfl, rfl⟩
  | cons b inbuf => exact ⟨rfl, rfl, rfl⟩

theorem mark_feed (calls : List (Str × Bool)) :
    (marking.feed mark calls).1 = mark ∧ data (marking.feed mark calls).2 = data calls := by
  induction calls with
  | nil => exact ⟨rfl, rfl⟩
  | cons call calls ih =>
    obtain ⟨henc, -, hout⟩ := mark_encode call.1 call.2
    rw [Virtual.feed]
    rw [henc, data_cons, data_cons]
    exact ⟨ih.1, by rw [hout, ih.2]⟩

theorem mark_consumes : marking.Consumes mark := by
  intro calls inbuf flush
  rw [(mark_feed calls).1]
  exact (mark_encode inbuf flush).2.1

theorem mark_flushed (inbuf : Str) : marking.flushed mark inbuf = inbuf :=
  (mark_encode inbuf true).2.2

theorem mark_drain (inbuf : Str) : marking.drain mark inbuf = inbuf ++ [33] := by
  rw [Virtual.drain, (mark_encode inbuf true).1, (mark_encode inbuf true).2.2]
  rfl

theorem mark_flushFree : marking.FlushFree mark := by
  intro calls _ last
  rw [(mark_feed calls).1, (mark_feed calls).2, mark_drain, mark_drain, append_assoc]

theorem mark_chunkFree : marking.ChunkFree mark := by
  refine ⟨fun calls _ last => ?_, fun calls _ last => mark_flushFree calls trivial last⟩
  rw [(mark_feed calls).1, (mark_feed calls).2, mark_flushed, mark_flushed]

/-- Two encoders with an end mark: `ab` comes out with two marks, in chunks and with a flush in
between. -/
theorem encodes_in_turn_marks :
    let r := (chain marking).feed (new [mark, mark]) (plain [[97], [98]])
    let s := (chain marking).feed (new [mark, mark]) [([97], true), ([98], true)]
    data r.2 ++ ((chain marking).finish r.1).out = [97, 98, 33, 33] ∧
      data s.2 ++ ((chain marking).finish s.1).out = [97, 98, 33, 33] := by
  have hmarks : ∀ e ∈ [mark, mark], e = mark := by simp
  have hturn := @encodes_in_turn Unit marking [mark, mark] fun e he => hmarks e he ▸ mark_consumes
  have hchunks := hturn.1 (fun e he => hmarks e he ▸ mark_chunkFree) [[97], [98]] []
  have hflushes := hturn.2 (fun e he => hmarks e he ▸ mark_flushFree) [([97], true), ([98], true)]
  exact ⟨hchunks.2, hflushes⟩

/-- A flush behind the data does not finish the encoders: no mark is written. -/
theorem flush_finishes_fails :
    marking.Consumes mark ∧ marking.ChunkFree mark ∧
      let r := (chain marking).feed (new [mark]) (plain [[97]])
      data r.2 ++ (chain marking).flushed r.1 [98] ≠ inTurn marking.drain [mark] [97, 98] := by
  refine ⟨mark_consumes, mark_chunkFree, ?_⟩
  decide

end WvEncoderChain

end WvStreams
