import WvStreams.Codecs.Codec
import WvStreams.Streams.EncoderStream.Input

/-!
# A stream at each end

One `WvEncoderStream` writes through the encoders of some codecs, another one reads through their
decoders, and what the one has sent is what comes to the other, in time. Both are used in any order
(`Connected`). What is read is what was written.
-/

namespace WvStreams

open WvEncoderChain Codec

open WvEncoder (Virtual)

variable {ω τ κ κ' : Type} {v : Virtual ω} {w : Virtual τ}

namespace Codec

variable (codecs : List (Codec v w))

def writing : Steady v where
  encoders := codecs.map encoder
  independent _ _ _ _ h := (drain_fed (encoders_transparent codecs) h).trans
    (drain_new (encoders_transparent codecs) _).symm

def reading : Steady w where
  encoders := codecs.reverse.map decoder
  independent _ _ _ _ h := (drain_fed (decoders_transparent codecs) h).trans
    (drain_new (decoders_transparent codecs) _).symm

theorem output_output (data : Str) :
    (reading codecs).output ((writing codecs).output data) = data := by
  have hwrites : (writing codecs).output data = _ :=
    drain_new (encoders_transparent codecs) data
  have hreads : (reading codecs).output ((writing codecs).output data) = _ :=
    drain_new (decoders_transparent codecs) _
  rw [hreads, hwrites]
  exact decodes_inTurn codecs data

end Codec

namespace WvEncoderStream

variable {codecs : List (Codec v w)} {W : Cloned κ} {W' : Cloned κ'}
  {wait : WvEncoderStream ω κ → WvEncoderStream ω κ × Bool}
  {wait' : WvEncoderStream τ κ' → WvEncoderStream τ κ' × Bool}

variable (codecs W W' wait wait')

/-- The two ends behind some calls of their functions. -/
inductive Connected : Session ω κ → Session τ κ' → Prop where
  | start (readers : List (WvEncoder ω)) (writers : List (WvEncoder τ)) (k : κ) (k' : κ') :
      Connected (.new readers (codecs.map encoder) k)
        (.new (codecs.reverse.map decoder) writers k')
  | send {s : Session ω κ} {r : Session τ κ'} (h : Connected s r) (op : Op) :
      Connected (s.step v W wait op).1 r
  | receive {s : Session ω κ} {r : Session τ κ'} (h : Connected s r) (op : Op)
      (hwell : WellRead w W' r op) : Connected s (r.step w W' wait' op).1

variable {codecs W W' wait wait'} {s : Session ω κ} {r : Session τ κ'}

theorem Connected.ends (h : Connected codecs W W' wait wait' s r) :
    Outer W (writing codecs) false s.data 0 s.stream ∧
      Listens W' (reading codecs) r.returned r.stream := by
  induction h with
  | start readers writers k k' => exact ⟨sends_start readers k, listens_start writers k'⟩
  | send _ op ih => exact ⟨sends_step wait ih.1 op nofun, ih.2⟩
  | receive _ op hwell ih => exact ⟨ih.1, listens_step wait' ih.2 hwell⟩

/-- While the link is ok, what was returned is a beginning of what was written. When both ends are
closed, all has come and `read` returns nothing, it is the whole of it. -/
theorem tunnel (h : Connected codecs W W' wait wait' s r)
    (hok : W.geterr s.stream.cloned = false) (htaken : s.stream.AllTaken) :
    (r.stream.input <+: s.stream.accepted → W'.isok r.stream.cloned = true →
      r.returned <+: s.data) ∧ ∀ count ≠ 0, WellRead w W' r (.read count) →
      let r' := r.step w W' wait' (.read count)
      s.stream.closed = true → r.stream.closed = true → r'.2 = [] →
        r'.1.stream.input = s.stream.accepted → r.returned = s.data := by
  obtain ⟨hsends, hlistens⟩ := h.ends
  have hholds := hsends.holds (.inl hok)
  have haccepted : s.stream.accepted = s.stream.encoded :=
    htaken.accepted_eq.trans (hsends.1.exact rfl htaken)
  refine ⟨fun hlink hisok => ?_, fun count hcount hwell hclosed hend hnone hall => ?_⟩
  · obtain ⟨more, hmore⟩ := hlink.trans (haccepted ▸ hholds.encoded_prefix)
    rw [← output_output codecs s.data, ← hmore]
    refine hlistens.1.returned_begins (.inr (Bool.eq_false_iff.mpr fun hfinished => ?_))
    exact absurd ((hlistens.2.1 hfinished).symm.trans hisok) nofun
  · rw [hlistens.read_closed wait' hend hwell hcount hnone]
    refine (congrArg _ (hall.trans haccepted)).trans ?_
    cases hholds with
    | coming fed hgo => exact absurd (hgo.symm.trans (hsends.1.closed hclosed)) nofun
    | ended _ _ hencoded => rw [hencoded, output_output]

/-- One byte goes through hex, while the ends take turns. -/
theorem tunnel_hex :
    let s := (Session.new [] [(hex true).encoder] false).run encoders (sink 9)
      (fun s => (s, true)) [.write [97], .close]
    let r := (Session.new [(hex true).decoder] [] ([54, 49], false)).run decoders
      (source false) (fun s => (s, true)) [.read 9, .read 9]
    r.returned = s.data := by
  intro s r
  have h : Connected [hex true] (sink 9) (source false) (fun s => (s, true))
      (fun s => (s, true)) s r :=
    ((((Connected.start [] [] false ([54, 49], false)).send (.write [97])).receive (.read 9)
      fun _ _ _ => .inr ⟨rfl, .inl rfl⟩).send .close).receive (.read 9) fun _ _ _ => .inl rfl
  have htaken : s.stream.AllTaken :=
    show ∀ o ∈ [(⟨[54, 49], 2⟩ : Offer), ⟨[], 0⟩, ⟨[], 0⟩, ⟨[], 0⟩], o.len = o.buf.length by decide
  exact (tunnel h rfl htaken).2 9 (by decide) (fun _ _ _ => .inl rfl) rfl rfl rfl rfl

end WvEncoderStream

end WvStreams
