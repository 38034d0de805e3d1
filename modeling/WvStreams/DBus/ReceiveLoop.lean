import WvStreams.Lib.Machine
import WvStreams.Strings.WvString

/-!
# The receive loop of a connection

`post_select` reads into `in_queue` and takes messages out of it until `demarshal` gives NULL,
which it does for an incomplete message as well as for one that libdbus rejects. So messages that
stand behind a rejected one are left in the queue. Those that were handed on and those that are
left are always the ones that have arrived (`Inv`), and nothing goes wrong if and only if no more
than one message is behind a rejected one, and none if the round has not delivered any
(`receives_iff`).
-/

namespace WvStreams

/-- The two functions of libdbus. -/
structure LibDBus (μ : Type) where
  /-- 0 if the header is not complete, -1 if it is invalid, else the length of the message. -/
  dbus_message_demarshal_bytes_needed : Str → Int
  /-- None for `NULL`. -/
  dbus_message_demarshal : Str → Option μ
  short : ∀ buf, buf.length < 16 → dbus_message_demarshal_bytes_needed buf = 0

namespace LibDBus

variable {μ : Type} (lib : LibDBus μ)

/-- `DBUS_MINIMUM_HEADER_SIZE` is 16. -/
def wvdbus_message_length (buf : Str) : Nat :=
  let msglen := lib.dbus_message_demarshal_bytes_needed buf
  if 0 < msglen then msglen.toNat else if msglen = 0 then 16 else 0

def demarshal (buf : Str) : Option μ × Str :=
  let messagelen := lib.wvdbus_message_length buf
  if messagelen = 0 then (none, [])
  else if buf.length < messagelen then (none, buf)
  else (lib.dbus_message_demarshal (buf.take messagelen), buf.drop messagelen)

/-- A message with a valid header, from whose first 16 bytes its length is known. -/
structure Framed (message : Str) : Prop where
  header : 16 ≤ message.length
  length : ∀ tail, lib.dbus_message_demarshal_bytes_needed (message.take 16 ++ tail) = message.length

/-- A message as it is sent, whether it will be rejected or not. -/
abbrev Message := { message : Str // lib.Framed message }

/-- The messages that are accepted among those that `n` bytes complete. -/
def accepted : List lib.Message → Nat → List μ
  | [], _ => []
  | message :: messages, n =>
    if message.1.length ≤ n then
      (lib.dbus_message_demarshal message.1).toList ++ accepted messages (n - message.1.length)
    else []

def outcome (messages : List lib.Message) : List μ :=
  messages.flatMap fun message => (lib.dbus_message_demarshal message.1).toList

def text (messages : List lib.Message) : Str := messages.flatMap (·.1)

end LibDBus

/-- Where `post_select` is: it has returned, is about to read, or takes messages out. -/
inductive Phase
  | outside
  | reading
  | demarshalling
  deriving DecidableEq

structure Receiver (μ : Type) where
  in_queue : Str := []
  ran : Bool := false
  phase : Phase := .outside
  /-- What has not arrived yet. -/
  stream : Str
  /-- What was handed to `filter_func`, in order. -/
  handed : List μ := []

namespace Receiver

variable {μ : Type} (lib : LibDBus μ)

/-- `n` is how many bytes arrive, as far as there is room for them. -/
inductive Input
  | post_select
  | read (n : Nat)
  | demarshal
  deriving DecidableEq

def needed (r : Receiver μ) : Nat := lib.wvdbus_message_length r.in_queue

/-- The length that is passed to `read`, a `size_t`. -/
def amt (r : Receiver μ) : Nat :=
  max ((r.needed lib + 2 ^ 64 - r.in_queue.length) % 2 ^ 64) 4096

def step (r : Receiver μ) : Input → Receiver μ
  | .post_select => if r.phase = .outside then { r with phase := .reading } else r
  | .read n =>
    if r.phase = .reading then
      { r with
        in_queue := r.in_queue ++ r.stream.take (min n (r.amt lib))
        stream := r.stream.drop (min n (r.amt lib))
        ran := false
        phase := .demarshalling }
    else r
  | .demarshal =>
    if r.phase = .demarshalling then
      match lib.demarshal r.in_queue with
      | (some m, in_queue) => { r with in_queue, ran := true, handed := r.handed ++ [m] }
      | (none, in_queue) => { r with in_queue, phase := if r.ran then .reading else .outside }
    else r

def machine : Lib.Machine (Receiver μ) Input Unit where
  step r i := some (r.step lib i, ())

/-- The computation of `amt` does not wrap around, and when `post_select` returns, everything that
is accepted among the messages that have arrived was handed on. -/
def Receives (messages : List lib.Message) (r : Receiver μ) (i : Input) (r' : Receiver μ)
    (_ : Unit) : Prop :=
  ((∃ n, i = .read n) → r.phase = .reading → r.in_queue.length ≤ r.needed lib) ∧
    (r'.phase = .outside → r'.handed =
      lib.accepted messages ((lib.text messages).length - r'.stream.length))

/-- Whether the queue begins with a whole message that libdbus rejects. -/
def Rejects (buf : Str) : Prop :=
  0 < lib.wvdbus_message_length buf ∧ lib.wvdbus_message_length buf ≤ buf.length ∧
    lib.dbus_message_demarshal (buf.take (lib.wvdbus_message_length buf)) = none

/-- Whether the queue is one whole message that libdbus accepts. -/
def IsAccepted (buf : Str) : Prop :=
  lib.wvdbus_message_length buf = buf.length ∧ (lib.dbus_message_demarshal buf).isSome = true

/-- Behind a rejected message there is no more than one whole message, and if the round has not
handed on any, this one is not accepted. -/
def Proper (r : Receiver μ) : Input → Prop
  | .demarshal => r.phase = .demarshalling → Rejects lib r.in_queue →
      let rest := r.in_queue.drop (lib.wvdbus_message_length r.in_queue)
      rest.length ≤ lib.wvdbus_message_length rest ∧ (r.ran = false → ¬ IsAccepted lib rest)
  | _ => True

variable {lib}

theorem text_cons (message : lib.Message) (messages : List lib.Message) :
    lib.text (message :: messages) = message.1 ++ lib.text messages := rfl

variable {messages done rest : List lib.Message} {buf : Str} {r : Receiver μ}

open LibDBus List

theorem length_eq {message : lib.Message} {rest : Str} (hbuf : buf <+: message.1 ++ rest)
    (hheader : 16 ≤ buf.length) : lib.wvdbus_message_length buf = message.1.length := by
  have htake : buf.take 16 = message.1.take 16 := by
    obtain ⟨tail, htail⟩ := hbuf
    have h := congrArg (take 16) htail
    rwa [take_append_of_le_length hheader, take_append_of_le_length message.2.header] at h
  have hneeded : lib.dbus_message_demarshal_bytes_needed buf = message.1.length := by
    rw [← take_append_drop 16 buf, htake]
    exact message.2.length _
  have hpos := message.2.header
  rw [wvdbus_message_length, hneeded, if_pos (by omega), Int.toNat_natCast]

theorem length_of_short (h : buf.length < 16) : lib.wvdbus_message_length buf = 16 := by
  rw [wvdbus_message_length, lib.short buf h]
  rfl

theorem demarshal_cases (hbuf : buf <+: lib.text messages) :
    (buf.length < lib.wvdbus_message_length buf ∧ lib.demarshal buf = (none, buf)) ∨
      ∃ message rest buf', messages = message :: rest ∧ buf = message.1 ++ buf' ∧
        buf' <+: lib.text rest ∧ lib.wvdbus_message_length buf = message.1.length ∧
          lib.demarshal buf = (lib.dbus_message_demarshal message.1, buf') := by
  have hincomplete : buf.length < lib.wvdbus_message_length buf →
      lib.demarshal buf = (none, buf) := by
    intro hlt
    rw [demarshal, if_neg (by omega), if_pos hlt]
  rcases Nat.lt_or_ge buf.length (lib.wvdbus_message_length buf) with hlt | hge
  · exact Or.inl ⟨hlt, hincomplete hlt⟩
  · right
    have hheader : 16 ≤ buf.length := by
      by_contra hshort
      rw [length_of_short (by omega)] at hge
      omega
    cases messages with
    | nil =>
      rw [prefix_nil.mp hbuf] at hheader
      exact absurd hheader (by decide)
    | cons message rest =>
      have hlength := length_eq (text_cons message rest ▸ hbuf) hheader
      rw [hlength] at hge
      obtain ⟨tail, htail⟩ := hbuf
      rw [text_cons] at htail
      obtain ⟨buf', hbuf', hrest⟩ : ∃ buf', buf = message.1 ++ buf' ∧
          buf' ++ tail = lib.text rest := by
        rcases append_eq_append_iff.mp htail with ⟨front, hmessage, hfront⟩ | ⟨buf', hb, hr⟩
        · have hnil : front = [] := by
            have hlen := congrArg length hmessage
            rw [length_append] at hlen
            exact length_eq_zero_iff.mp (by omega)
          subst hnil
          exact ⟨[], by rw [hmessage, append_nil, append_nil], hfront⟩
        · exact ⟨buf', hb, hr.symm⟩
      refine ⟨message, rest, buf', rfl, hbuf', ⟨tail, hrest⟩, hlength, ?_⟩
      have hpos := message.2.header
      rw [demarshal, hlength, if_neg (by omega), if_neg (Nat.not_lt.mpr hge), hbuf',
        take_left, drop_left]

theorem accepted_zero (messages : List lib.Message) : lib.accepted messages 0 = [] := by
  cases messages with
  | nil => rfl
  | cons message messages =>
    have hpos := message.2.header
    rw [accepted, if_neg (by omega)]

theorem accepted_append (done rest : List lib.Message) (n : Nat) :
    lib.accepted (done ++ rest) ((lib.text done).length + n) =
      lib.outcome done ++ lib.accepted rest n := by
  induction done with
  | nil => rw [nil_append, text, flatMap_nil, length_nil, Nat.zero_add]; rfl
  | cons message done ih =>
    have hsub : (lib.text (message :: done)).length + n - message.1.length =
        (lib.text done).length + n := by
      rw [text_cons, length_append]
      omega
    rw [cons_append, accepted, if_pos, hsub, ih, ← append_assoc]
    · rfl
    · rw [text_cons, length_append]
      omega

theorem accepted_eq_nil (hbuf : buf <+: lib.text messages)
    (hle : buf.length ≤ lib.wvdbus_message_length buf) (haccepted : ¬ IsAccepted lib buf) :
    lib.accepted messages buf.length = [] := by
  rcases demarshal_cases hbuf with ⟨hlt, -⟩ | ⟨message, rest, buf', rfl, rfl, -, hlength, -⟩
  · cases messages with
    | nil => rfl
    | cons message rest =>
      rw [accepted, if_neg]
      intro hmessage
      have hheader := message.2.header
      rw [length_eq (text_cons message rest ▸ hbuf) (by omega)] at hlt
      omega
  · rw [hlength, length_append] at hle
    have hnil : buf' = [] := length_eq_zero_iff.mp (by omega)
    subst hnil
    rw [append_nil] at haccepted hlength ⊢
    have hnone : lib.dbus_message_demarshal message.1 = none := by
      by_contra hsome
      exact haccepted ⟨hlength, Option.isSome_iff_ne_none.mpr hsome⟩
    rw [accepted, if_pos (Nat.le_refl _), Nat.sub_self, accepted_zero, hnone]
    rfl

theorem isAccepted_of_nil (hbuf : buf <+: lib.text messages)
    (hnil : lib.accepted messages buf.length = []) : ¬ IsAccepted lib buf := by
  rintro ⟨hlength, hsome⟩
  rcases demarshal_cases hbuf with ⟨hlt, -⟩ | ⟨message, rest, buf', rfl, rfl, -, hlength', -⟩
  · omega
  · rw [hlength', length_append] at hlength
    have hnone : buf' = [] := length_eq_zero_iff.mp (by omega)
    subst hnone
    rw [append_nil] at hsome hnil
    obtain ⟨m, hm⟩ := Option.isSome_iff_exists.mp hsome
    rw [accepted, if_pos (Nat.le_refl _), hm] at hnil
    cases hnil

/-- Some messages were taken out of the queue, and what has arrived of the others is in it. -/
structure Split (messages : List lib.Message) (r : Receiver μ) (done rest : List lib.Message) :
    Prop where
  messages : messages = done ++ rest
  queue : r.in_queue ++ r.stream = lib.text rest
  handed : r.handed = lib.outcome done

theorem Split.prefix (h : Split messages r done rest) :
    r.in_queue <+: lib.text rest := ⟨r.stream, h.queue⟩

theorem Split.arrived (h : Split messages r done rest) :
    lib.accepted messages ((lib.text messages).length - r.stream.length) =
      r.handed ++ lib.accepted rest r.in_queue.length := by
  have hlength : (lib.text messages).length - r.stream.length =
      (lib.text done).length + r.in_queue.length := by
    rw [h.messages, text, flatMap_append, length_append, ← text, ← text, ← h.queue, length_append]
    omega
  rw [hlength, h.handed, h.messages, accepted_append]

/-- Where the loop is not taking messages out, it has left no more than one. -/
structure Inv (messages : List lib.Message) (r : Receiver μ) : Prop where
  split : ∃ done rest, Split messages r done rest
  quiet : r.phase ≠ .demarshalling → r.in_queue.length ≤ r.needed lib
  done : r.phase = .outside → ¬ IsAccepted lib r.in_queue

theorem Split.next {message : lib.Message} (h : Split messages r done (message :: rest))
    (hqueue : r.in_queue = message.1 ++ buf) (ran : Bool) (phase : Phase) : Split messages
      { r with
        in_queue := buf
        ran
        phase
        handed := r.handed ++ (lib.dbus_message_demarshal message.1).toList } (done ++ [message]) rest := by
  refine ⟨?_, ?_, ?_⟩
  · rw [h.messages, append_assoc]
    rfl
  · have hsplit := h.queue
    rw [hqueue, text_cons, append_assoc] at hsplit
    exact append_cancel_left hsplit
  · rw [outcome, flatMap_append, ← outcome, ← h.handed, flatMap_cons, flatMap_nil, append_nil]

theorem Inv.step {messages : List lib.Message} {r : Receiver μ} (h : Inv messages r) {i : Input}
    (hi : r.Proper lib i) : Inv messages (r.step lib i) := by
  obtain ⟨done, rest, hsplit⟩ := h.split
  cases i with
  | post_select =>
    unfold Receiver.step
    dsimp only
    split
    · rename_i houtside
      have hquiet := h.quiet (houtside ▸ Phase.noConfusion)
      exact ⟨⟨done, rest, hsplit.messages, hsplit.queue, hsplit.handed⟩, fun _ => hquiet,
        nofun⟩
    · exact h
  | read n =>
    unfold Receiver.step
    dsimp only
    split
    · refine ⟨⟨done, rest, hsplit.messages, ?_, hsplit.handed⟩, fun hphase => absurd rfl hphase,
        nofun⟩
      rw [append_assoc, take_append_drop]
      exact hsplit.queue
    · exact h
  | demarshal =>
    unfold Receiver.step
    dsimp only
    split
    · rename_i hphase
      rcases demarshal_cases hsplit.prefix with
        ⟨hlt, hnull⟩ | ⟨message, rest', buf, rfl, hqueue, hbuf, hlength, htaken⟩
      · rw [hnull]
        refine ⟨⟨done, rest, hsplit.messages, hsplit.queue, hsplit.handed⟩,
          fun _ => Nat.le_of_lt hlt, fun _ haccepted => ?_⟩
        have heq : lib.wvdbus_message_length r.in_queue = r.in_queue.length := haccepted.1
        omega
      · rw [htaken]
        cases hm : lib.dbus_message_demarshal message.1 with
        | some m =>
          have hnext := hsplit.next hqueue true r.phase
          rw [hm] at hnext
          exact ⟨⟨_, _, hnext⟩, fun hother => absurd hphase hother,
            fun houtside => by rw [hphase] at houtside; cases houtside⟩
        | none =>
          have hnext := hsplit.next hqueue r.ran (if r.ran then .reading else .outside)
          rw [hm, Option.toList_none, append_nil] at hnext
          have hrejects : Rejects lib r.in_queue := by
            have hpos := message.2.header
            refine ⟨by omega, ?_, ?_⟩
            · rw [hlength, hqueue, length_append]
              exact Nat.le_add_right _ _
            · rw [hlength, hqueue, take_left, hm]
          have hrest := hi hphase hrejects
          rw [hlength, hqueue, drop_left] at hrest
          refine ⟨⟨_, _, hnext⟩, fun _ => hrest.1, fun houtside => hrest.2 ?_⟩
          cases hran : r.ran with
          | false => rfl
          | true => simp [hran] at houtside
    · exact h

theorem Inv.receives (h : Inv messages r) {i : Input} (hi : r.Proper lib i) :
    Receives lib messages r i (r.step lib i) () := by
  have hnext := h.step hi
  constructor
  · intro _ hphase
    exact h.quiet (hphase ▸ Phase.noConfusion)
  · intro houtside
    obtain ⟨done, rest, hsplit⟩ := hnext.split
    have hquiet := hnext.quiet (houtside ▸ Phase.noConfusion)
    rw [hsplit.arrived, accepted_eq_nil hsplit.prefix hquiet (hnext.done houtside), append_nil]

theorem Inv.proper (h : Inv messages r) {i : Input}
    (hruns : ∀ is, (machine lib).Runs (Receives lib messages) r is) : r.Proper lib i := by
  cases i with
  | post_select | read => trivial
  | demarshal =>
    intro hphase hrejects
    obtain ⟨done, rest, hsplit⟩ := h.split
    obtain ⟨r₁, _, h₁, hP₁, r₂, _, h₂, -, r₃, _, h₃, hP₃, -⟩ :=
      hruns [.demarshal, .post_select, .read 0]
    cases h₁
    cases h₂
    rcases demarshal_cases hsplit.prefix with
      ⟨hlt, -⟩ | ⟨message, rest', buf, rfl, hqueue, hbuf, hlength, htaken⟩
    · have hle := hrejects.2.1
      omega
    · have hm : lib.dbus_message_demarshal message.1 = none := by
        have hnone := hrejects.2.2
        rwa [hlength, hqueue, take_left] at hnone
      rw [hlength, hqueue, drop_left]
      have hnext := hsplit.next hqueue r.ran (if r.ran then .reading else .outside)
      rw [hm, Option.toList_none, append_nil] at hnext
      have hstep : r.step lib .demarshal =
          { r with in_queue := buf, phase := if r.ran then .reading else .outside } := by
        simp only [Receiver.step, if_pos hphase, htaken, hm]
      rw [hstep] at hP₁ hP₃
      constructor
      · have hreading := hP₃.1 ⟨0, rfl⟩
        cases hran : r.ran with
        | true | false =>
          rw [hran] at hreading
          exact hreading rfl
      · intro hran
        have houtside : (if r.ran then Phase.reading else Phase.outside) = .outside := by
          rw [hran]
          rfl
        have hhanded : r.handed = _ := hP₁.2 houtside
        have harrived := hnext.arrived
        rw [← hhanded] at harrived
        exact isAccepted_of_nil hbuf (append_right_eq_self.mp harrived.symm)

theorem Inv.start (messages : List lib.Message) :
    Inv messages ({ stream := lib.text messages } : Receiver μ) := by
  refine ⟨⟨[], messages, rfl, rfl, rfl⟩, fun _ => Nat.zero_le _, ?_⟩
  rintro - ⟨hlength, -⟩
  have hzero : lib.wvdbus_message_length [] = 0 := hlength
  have hheader : lib.wvdbus_message_length [] = 16 := length_of_short (by decide)
  omega

/-- A run delivers the messages if the rejected ones in it have nothing but the next message
behind them. -/
theorem receives_of_along {inputs : List Input}
    (h : (machine lib).Along (Proper lib) { stream := lib.text messages } inputs) :
    (machine lib).Runs (Receives lib messages) { stream := lib.text messages } inputs := by
  have hstep : ∀ (r : Receiver μ) i, Inv messages r → r.Proper lib i →
      ∃ r' o, (machine lib).step r i = some (r', o) ∧ Receives lib messages r i r' o ∧
        Inv messages r' :=
    fun _ _ h hi => ⟨_, _, rfl, h.receives hi, h.step hi⟩
  exact Lib.Machine.runs_of_along hstep (.start messages) h

/-- For every way in which the bytes of some messages arrive: `post_select` hands on what has
arrived and computes the length for `read` without wrapping around, if and only if the rejected
messages have nothing but the next message behind them. -/
theorem receives_iff (lib : LibDBus μ) (messages : List lib.Message) :
    (∀ inputs, (machine lib).Runs (Receives lib messages) { stream := lib.text messages } inputs) ↔
      ∀ inputs, (machine lib).Along (Proper lib) { stream := lib.text messages } inputs := by
  refine ⟨fun hruns inputs => ?_, fun halong inputs => receives_of_along (halong inputs)⟩
  have hcond : ∀ (r : Receiver μ) i, Inv messages r →
      (∀ is, (machine lib).Runs (Receives lib messages) r is) → r.Proper lib i :=
    fun _ _ h hruns => h.proper hruns
  refine Lib.Machine.forall_along_of_forall_runs hcond ?_ (.start messages) hruns inputs
  intro r i r' o h hi hstep
  cases hstep
  exact h.step hi

def tinyNeeded (buf : Str) : Int := if buf.length < 16 then 0 else (buf.headD 0).toNat

/-- The first byte of a message is its length, and a message whose second byte is 1 is rejected. -/
def tinyBus : LibDBus Str where
  dbus_message_demarshal_bytes_needed := tinyNeeded
  dbus_message_demarshal buf := if buf.getD 1 0 = 1 then none else some buf
  short _ h := if_pos h

def tinyMessage (second : Byte) : tinyBus.Message where
  val := 16 :: second :: List.replicate 14 0
  property := by
    refine ⟨Nat.le_refl 16, fun tail => ?_⟩
    have hlong : ¬ (List.take 16 (16 :: second :: List.replicate 14 0) ++ tail).length < 16 := by
      simp
    simp only [tinyBus, tinyNeeded, if_neg hlong]
    rfl

/-- `post_select` returns with two accepted messages left in the queue. -/
theorem leaves_messages : ¬ ∀ (lib : LibDBus Str) (messages : List lib.Message) (inputs : List Input),
    (machine lib).Runs (Receives lib messages) { stream := lib.text messages } inputs := by
  intro h
  obtain ⟨_, _, h₁, -, _, _, h₂, -, _, _, h₃, hP, -⟩ :=
    h tinyBus [tinyMessage 1, tinyMessage 0, tinyMessage 0] [.post_select, .read 48, .demarshal]
  cases h₁
  cases h₂
  cases h₃
  have hhanded := hP.2 (by decide)
  revert hhanded
  decide

end Receiver

end WvStreams
