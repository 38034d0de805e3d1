import WvStreams.Codecs.ChainComposition

/-!
# Chains of independent encoders

If it does not matter for any encoder of a chain how its data come, where it is flushed and when
it is run, then it does not matter for the chain (`drain_fed`). `Flows` follows the data
through the buffers between the encoders.
-/

namespace WvStreams

open List

open WvEncoder (Encoded Virtual)

namespace WvEncoder.Virtual

variable {σ : Type}

/-- It does not matter how the data come, and what a flush leaves in the input buffer is not read
any more. -/
structure Transparent (v : Virtual σ) (start : WvEncoder σ) : Prop where
  independent : v.Independent start
  settles : ∀ data e inbuf out, v.Fed start data e inbuf out →
    (v.encode e inbuf true).rest = [] ∨ (v.encode e inbuf true).enc.live = false

end WvEncoder.Virtual

namespace WvEncoderChain

open WvEncoder.Virtual

variable {ω : Type} {v : Virtual ω}

/-- All that an encoder has written is the data of the next one. The first input buffer is that of
the chain, the others are between the encoders. -/
inductive Flows (v : Virtual ω) :
    List (WvEncoder ω) → List (ChainElem ω) → Str → Str → Str → Prop
  | nil (inbuf out : Str) : Flows v [] [] (out ++ inbuf) inbuf out
  | cons {start : WvEncoder ω} {starts : List (WvEncoder ω)} {elem : ChainElem ω}
      {elems : List (ChainElem ω)} {data inbuf mid out : Str}
      (hfed : v.Fed start data elem.enc inbuf mid) (hrest : Flows v starts elems mid elem.out out) :
      Flows v (start :: starts) (elem :: elems) data inbuf out

variable {starts : List (WvEncoder ω)} {elems : List (ChainElem ω)} {data inbuf out : Str}

theorem flows_new (encoders : List (WvEncoder ω)) :
    Flows v encoders (encoders.map fun enc => { enc }) [] [] [] := by
  induction encoders with
  | nil => exact .nil [] []
  | cons e encoders ih => exact .cons .start ih

theorem Flows.put (h : Flows v starts elems data inbuf out) (chunk : Str) :
    Flows v starts elems (data ++ chunk) (inbuf ++ chunk) out := by
  cases h with
  | nil =>
    rw [append_assoc]
    exact .nil _ out
  | cons hfed hrest => exact .cons (hfed.put chunk) hrest

theorem Flows.run (h : Flows v starts elems data inbuf out) (flush : Bool) :
    let r := runLoop v flush false elems inbuf
    Flows v starts r.enc data r.rest (out ++ r.out) := by
  induction starts generalizing elems data inbuf out with
  | nil =>
    cases h
    have hnil := Flows.nil (v := v) [] (out ++ inbuf)
    rw [append_nil] at hnil
    exact hnil
  | cons start starts ih =>
    cases h with
    | @cons _ _ elem elems _ _ mid _ hfed hrest =>
      have hbuf : (advance v flush false elem inbuf).enc.out =
          elem.out ++ (v.encode elem.enc inbuf flush).out := append_nil _
      have hnext := ih (hrest.put (v.encode elem.enc inbuf flush).out)
      rw [← hbuf] at hnext
      exact .cons (hfed.encode flush) hnext

theorem Flows.drain (h : Flows v starts elems data inbuf out)
    (hstarts : ∀ e ∈ starts, v.Transparent e) :
    out ++ (runLoop v true true elems inbuf).out = inTurn v.drain starts data := by
  induction starts generalizing elems data inbuf out with
  | nil =>
    cases h
    rfl
  | cons start starts ih =>
    obtain ⟨hstart, hstarts⟩ := forall_mem_cons.mp hstarts
    cases h with
    | @cons _ _ elem elems _ _ mid _ hfed hrest =>
      have hbuf : (advance v true true elem inbuf).enc.out =
          elem.out ++ v.drain elem.enc inbuf := append_assoc _ _ _
      have hnext := ih (hrest.put (v.drain elem.enc inbuf)) hstarts
      rw [hstart.independent _ _ _ _ hfed, ← hbuf] at hnext
      exact hnext

theorem runLoop_dead {elem : ChainElem ω} (h : elem.enc.live = false) (elems : List (ChainElem ω))
    (inbuf : Str) : (runLoop v true true (elem :: elems) inbuf).out =
      (runLoop v true true (elem :: elems) []).out := by
  simp only [runLoop, advance, encode_of_not_live h]

theorem Flows.settled (h : Flows v starts elems data inbuf out)
    (hstarts : ∀ e ∈ starts, v.Transparent e) :
    let r := runLoop v true false elems inbuf
    (runLoop v true true r.enc r.rest).out = (runLoop v true true r.enc []).out := by
  cases h with
  | nil => rfl
  | @cons start starts elem elems _ _ mid _ hfed hrest =>
    rcases (hstarts start mem_cons_self).settles _ _ _ _ hfed with hnil | hdead
    · have hrest' : (advance v true false elem inbuf).rest = [] := hnil
      simp only [runLoop, hrest']
    · exact runLoop_dead hdead _ _

variable {encoders : List (WvEncoder ω)}

theorem flows_fed {e : WvEncoderChain ω} (h : (chain v).Fed (new encoders) data e inbuf out) :
    e.live = true ∧ Flows v encoders e.self.encoders data inbuf out := by
  induction h with
  | start => exact ⟨rfl, flows_new encoders⟩
  | put h chunk ih => exact ⟨ih.1, ih.2.put chunk⟩
  | @encode data e inbuf out h flush ih =>
    rw [Virtual.encode]
    split
    · refine ⟨ih.1, ?_⟩
      have hrun := ih.2.run flush
      simpa only [chain, do_encode, passed, drop_zero, take_zero, nil_append]
        using hrun
    · dsimp only
      rw [append_nil]
      exact ih

theorem drain_fed {e : WvEncoderChain ω} (hencoders : ∀ e ∈ encoders, v.Transparent e)
    (h : (chain v).Fed (new encoders) data e inbuf out) :
    out ++ (chain v).drain e inbuf = inTurn v.drain encoders data := by
  obtain ⟨hlive, hflows⟩ := flows_fed h
  have hcall : (e.live && (!inbuf.isEmpty || true)) = true := by
    rw [hlive, Bool.or_true]
    rfl
  have hgo : ((chain v)._encode e inbuf true).enc.live = true := hlive
  have hend : (chain v).drain e inbuf =
      let r := runLoop v true false e.self.encoders inbuf
      r.out ++ (runLoop v true true r.enc []).out := by
    rw [Virtual.drain, Virtual.encode, if_pos hcall, Virtual.finish, if_pos hgo]
    simp only [chain, do_encode, passed, drop_zero, take_zero, nil_append]
  rw [hend]
  dsimp only
  rw [← hflows.settled hencoders, ← append_assoc]
  exact (hflows.run true).drain hencoders

theorem drain_new (hencoders : ∀ e ∈ encoders, v.Transparent e)
    (data : Str) : (chain v).drain (new encoders) data = inTurn v.drain encoders data :=
  drain_fed hencoders (.put .start data)

end WvEncoderChain

end WvStreams
