import WvStreams.Buffers.Kinds

/-!
# `WvBufCursorStore`

A cursor is a queue that holds a slice of another buffer, which it reads by peeking
(`follows_slice`). It is one as long as the other buffer shows what is peeked at, the cursor is
peeked at only if the slice begins at offset 0, and `optgettable` is asked only where the
contiguous run does not reach behind the slice. The offsets are integers without a bound here; in
the source they are of type `int`, so that all counts have to be less than 2^31.
-/

namespace WvStreams

open Lib Lib.Ring Queue List Queue WvBufStore

/-- The content is the same, and the history from `start` on is still there. -/
structure Queue.Kept (q : Queue) (start : Int) (q' : Queue) : Prop where
  content : q'.content = q.content
  history : q'.history <:+ q.history
  reached : (-start).toNat ≤ q'.history.length

theorem Queue.Kept.refl {q : Queue} {start : Int} (h : 0 ≤ q.history.length + start) :
    q.Kept start q :=
  ⟨rfl, suffix_refl _, by omega⟩

theorem Queue.Kept.peek {q q' : Queue} {start : Int} (h : q.Kept start q') (count : Nat) :
    q'.peek start count = q.peek start count := by
  obtain ⟨lost, hlost⟩ := h.history
  have hreached := h.reached
  have hplace : q.place start = lost.length + q'.place start := by
    rw [place, place, ← hlost, length_append]
    omega
  rw [Queue.peek, Queue.peek, hplace, ← hlost, h.content, append_assoc, drop_length_add_append]

/-- A store that can be peeked at. `Shows` is when a peek shows the bytes, and does not lose the
history from `start` on; `Answers` is when `optpeekable` may be asked. -/
structure PeekStore (β : Type) where
  view : β → Queue
  Valid : β → Prop
  optpeekable : β → Int → Option Nat
  peek : β → Int → Nat → Option (β × Str)
  Shows : β → Int → Int → Nat → Prop
  Answers : β → Int → Prop
  peek_spec : ∀ {b start offset count}, Valid b → Shows b start offset count →
    0 ≤ (view b).history.length + start → count ≤ (view b).peekable offset →
    ∃ b', peek b offset count = some (b', (view b).peek offset count) ∧ Valid b' ∧
      (view b).Kept start (view b')
  optpeekable_spec : ∀ {b offset}, Valid b → Answers b offset →
    ∃ n, optpeekable b offset = some n ∧ ((view b).peekable offset ≠ 0 → n ≠ 0)

structure WvBufCursorStore (β : Type) where
  buf : β
  start : Int
  length : Nat
  shift : Nat

namespace WvBufCursorStore

variable {β : Type} (p : PeekStore β)

def used (s : WvBufCursorStore β) : Nat := s.length - s.shift

def optgettable (s : WvBufCursorStore β) : Option Nat :=
  (p.optpeekable s.buf (s.start + s.shift)).bind fun avail =>
    if avail ≠ 0 ∨ s.length = s.shift then some (min avail s.length) else none

def get (s : WvBufCursorStore β) (count : Nat) : Option (WvBufCursorStore β × Str) :=
  if count ≤ s.length - s.shift then
    (p.peek s.buf (s.start + s.shift) count).map fun (buf, data) =>
      ({ s with buf := buf, shift := s.shift + count }, data)
  else none

def skip (s : WvBufCursorStore β) (count : Nat) : Option (WvBufCursorStore β) :=
  if count ≤ s.length - s.shift then some { s with shift := s.shift + count } else none

def unget (s : WvBufCursorStore β) (count : Nat) : Option (WvBufCursorStore β) :=
  if count ≤ s.shift then some { s with shift := s.shift - count } else none

def ungettable (s : WvBufCursorStore β) : Nat := s.shift

def zap (s : WvBufCursorStore β) : WvBufCursorStore β := { s with shift := s.length }

def peekable (s : WvBufCursorStore β) (offset : Int) : Nat :=
  let offset := offset + s.shift - s.start
  if offset < 0 ∨ offset > s.length then 0 else s.length - offset.toNat

def optpeekable (s : WvBufCursorStore β) (offset : Int) : Option Nat :=
  (p.optpeekable s.buf (s.start + s.shift + offset)).bind fun avail =>
    if avail ≠ 0 ∨ s.length = s.shift then some (min avail (s.peekable offset)) else none

def peek (s : WvBufCursorStore β) (offset : Int) (count : Nat) :
    Option (WvBufCursorStore β × Str) :=
  let offset := offset + s.shift
  if offset ≥ s.start ∧ offset - s.start + count ≤ s.length then
    (p.peek s.buf offset count).map fun (buf, data) => ({ s with buf := buf }, data)
  else none

/-! ## The calls -/

inductive Call where
  | get (count : Nat)
  | skip (count : Nat)
  | unget (count : Nat)
  | peek (offset : Int) (count : Nat)
  | zap
  | optgettable

inductive Out where
  | bytes (data : Str)
  | size (n : Nat)
  deriving DecidableEq

def machine : Machine (WvBufCursorStore β) Call Out where
  step s
    | .get count => (s.get p count).map fun (s, data) => (s, .bytes data)
    | .skip count => (s.skip count).map fun s => (s, .bytes [])
    | .unget count => (s.unget count).map fun s => (s, .bytes [])
    | .peek offset count => (s.peek p offset count).map fun (s, data) => (s, .bytes data)
    | .zap => some (s.zap, .bytes [])
    | .optgettable => (s.optgettable p).map fun n => (s, .size n)

/-- The bytes of the slice, those that are consumed in the history. -/
def view (s : WvBufCursorStore β) : Queue :=
  let slice := (p.view s.buf).peek s.start s.length
  ⟨slice.take s.shift, slice.drop s.shift⟩

def Legal (s : WvBufCursorStore β) : Call → Prop
  | .get count => count ≤ (s.view p).content.length
  | .skip count => count ≤ (s.view p).content.length
  | .unget count => count ≤ (s.view p).history.length
  | .peek offset count => count ≤ (s.view p).peekable offset
  | .zap => True
  | .optgettable => True

/-- What the calls need besides: the other buffer shows the bytes; a peek is for a slice that
begins at 0, and not outside of it; the contiguous run ends in the slice, or it is clipped at its
end because all is still there. -/
def Sound (s : WvBufCursorStore β) : Call → Prop
  | .get count => p.Shows s.buf s.start (s.start + s.shift) count
  | .peek offset count => s.start = 0 ∧ -s.shift ≤ offset ∧ offset ≤ s.length - s.shift ∧
      p.Shows s.buf s.start (offset + s.shift) count
  | .optgettable => p.Answers s.buf (s.start + s.shift) ∧
      (s.shift = 0 ∨ ∀ avail ∈ p.optpeekable s.buf (s.start + s.shift), avail ≤ s.length - s.shift)
  | _ => True

/-- What a call does to the queue. -/
def Follows (q : Queue) (call : Call) (q' : Queue) (out : Out) : Prop :=
  match call with
  | .get count => q' = q.get count ∧ out = .bytes (q.content.take count)
  | .skip count => q' = q.get count ∧ out = .bytes []
  | .unget count => q' = q.unget count ∧ out = .bytes []
  | .peek offset count => q' = q ∧ out = .bytes (q.peek offset count)
  | .zap => q' = q.get q.content.length ∧ out = .bytes []
  | .optgettable => q' = q ∧ ∃ n, out = .size n ∧ n ≤ q.content.length ∧ (q.content ≠ [] → n ≠ 0)

/-- The slice is inside the buffer. -/
structure Inside (s : WvBufCursorStore β) : Prop where
  valid : p.Valid s.buf
  shift_le : s.shift ≤ s.length
  start_ge : 0 ≤ (p.view s.buf).history.length + s.start
  end_le : (p.view s.buf).place s.start + s.length ≤
    (p.view s.buf).history.length + (p.view s.buf).content.length

variable {p}

/-! ## The slice -/

def slice (p : PeekStore β) (s : WvBufCursorStore β) : Str := (p.view s.buf).peek s.start s.length

variable {s : WvBufCursorStore β}

theorem Inside.length_slice (hs : Inside p s) : (slice p s).length = s.length := by
  have hend := hs.end_le
  rw [slice, Queue.peek, length_take, length_drop, length_append]
  omega

theorem Inside.length_history (hs : Inside p s) : (s.view p).history.length = s.shift := by
  have hlen := hs.length_slice
  have hshift := hs.shift_le
  show ((slice p s).take s.shift).length = s.shift
  rw [length_take, hlen]
  omega

theorem Inside.length_content (hs : Inside p s) :
    (s.view p).content.length = s.length - s.shift := by
  have hlen := hs.length_slice
  show ((slice p s).drop s.shift).length = s.length - s.shift
  rw [length_drop, hlen]

theorem view_append (s : WvBufCursorStore β) :
    (s.view p).history ++ (s.view p).content = slice p s := take_append_drop _ _

theorem Inside.place_add (hs : Inside p s) (m : Nat) :
    (p.view s.buf).place (s.start + m) = (p.view s.buf).place s.start + m := by
  have hstart := hs.start_ge
  rw [place, place]
  omega

theorem Inside.peek (hs : Inside p s) {m count : Nat} (h : m + count ≤ s.length)
    (hshows : p.Shows s.buf s.start (s.start + m) count) :
    ∃ b', p.peek s.buf (s.start + m) count =
      some (b', ((slice p s).drop m).take count) ∧ p.Valid b' ∧
      (p.view s.buf).Kept s.start (p.view b') := by
  have hend := hs.end_le
  have hstart := hs.start_ge
  have hplace := hs.place_add m
  have hcount : count ≤ (p.view s.buf).peekable (s.start + m) :=
    le_peekable (by omega) (by omega)
  obtain ⟨b', hpeek, hvalid, hkept⟩ := p.peek_spec hs.valid hshows hstart hcount
  refine ⟨b', ?_, hvalid, hkept⟩
  have hbytes : (p.view s.buf).peek (s.start + m) count = ((slice p s).drop m).take count := by
    rw [slice, Queue.peek, Queue.peek, hplace, drop_take, take_take, drop_drop,
      Nat.min_eq_left (by omega)]
  rw [hpeek, hbytes]

theorem Inside.moved (hs : Inside p s) {b' : β} {shift : Nat} (hvalid : p.Valid b')
    (hkept : (p.view s.buf).Kept s.start (p.view b')) (hshift : shift ≤ s.length) :
    Inside p { s with buf := b', shift := shift } ∧
      slice p { s with buf := b', shift := shift } = slice p s := by
  have hreached := hkept.reached
  refine ⟨⟨hvalid, hshift, ?_, ?_⟩, hkept.peek _⟩
  · show 0 ≤ ((p.view b').history.length : Int) + s.start
    omega
  · have hstart := hs.start_ge
    have hend := hs.end_le
    show (p.view b').place s.start + s.length ≤
      (p.view b').history.length + (p.view b').content.length
    rw [place] at hend ⊢
    rw [hkept.content]
    omega

theorem Inside.kept (hs : Inside p s) : (p.view s.buf).Kept s.start (p.view s.buf) :=
  .refl hs.start_ge

theorem Inside.advance (hs : Inside p s) {b' : β} {count : Nat} (hvalid : p.Valid b')
    (hkept : (p.view s.buf).Kept s.start (p.view b')) (hcount : count ≤ s.length - s.shift) :
    let s' : WvBufCursorStore β := { s with buf := b', shift := s.shift + count }
    s'.view p = (s.view p).get count ∧ Inside p s' := by
  have hle := hs.shift_le
  have hshift : s.shift + count ≤ s.length := by omega
  obtain ⟨hinside, hslice⟩ := hs.moved hvalid hkept hshift
  refine ⟨?_, hinside⟩
  show (⟨(slice p _).take (s.shift + count), (slice p _).drop (s.shift + count)⟩ : Queue) =
    Queue.get ⟨(slice p s).take s.shift, (slice p s).drop s.shift⟩ count
  rw [hslice, Queue.get, take_add, drop_drop]

theorem Inside.retreat (hs : Inside p s) {count : Nat} (hcount : count ≤ s.shift) :
    let s' : WvBufCursorStore β := { s with shift := s.shift - count }
    s'.view p = (s.view p).unget count ∧ Inside p s' := by
  have hlen := hs.length_history
  have hslen := hs.length_slice
  have hle := hs.shift_le
  have hshift : s.shift - count ≤ s.length := by omega
  obtain ⟨hinside, hslice⟩ := hs.moved hs.valid hs.kept hshift
  refine ⟨?_, hinside⟩
  rw [Queue.unget, hlen]
  show (⟨(slice p _).take (s.shift - count), (slice p _).drop (s.shift - count)⟩ : Queue) =
    ⟨((slice p s).take s.shift).take (s.shift - count),
      ((slice p s).take s.shift).drop (s.shift - count) ++ (slice p s).drop s.shift⟩
  rw [hslice, take_take, Nat.min_eq_left (Nat.sub_le _ _)]
  congr 1
  conv_lhs => rw [← take_append_drop s.shift (slice p s)]
  rw [drop_append_of_le_length]
  rw [length_take]
  omega

/-! ## Runs -/

theorem machine_step (hs : Inside p s) {call : Call} (hlegal : Legal p s call)
    (hsound : Sound p s call) :
    ∃ s' out, (machine p).step s call = some (s', out) ∧
      (Follows (s.view p) call (s'.view p) out ∧ (p.view s.buf).Kept s.start (p.view s'.buf)) ∧
      Inside p s' := by
  have hlenc := hs.length_content
  have hlenh := hs.length_history
  have hle := hs.shift_le
  cases call with
  | get count =>
    have hcount : count ≤ s.length - s.shift := hlenc ▸ hlegal
    have hfits : s.shift + count ≤ s.length := by omega
    obtain ⟨b', hpeek, hvalid, hkept⟩ := hs.peek hfits hsound
    obtain ⟨hget, hinside⟩ := hs.advance hvalid hkept hcount
    refine ⟨_, _, ?_, ⟨⟨hget, rfl⟩, hkept⟩, hinside⟩
    simp only [machine, get, if_pos hcount, hpeek, Option.map_some]
    rfl
  | skip count =>
    have hcount : count ≤ s.length - s.shift := hlenc ▸ hlegal
    obtain ⟨hskip, hinside⟩ := hs.advance hs.valid hs.kept hcount
    refine ⟨_, _, ?_, ⟨⟨hskip, rfl⟩, hs.kept⟩, hinside⟩
    simp only [machine, skip, if_pos hcount, Option.map_some]
  | unget count =>
    have hcount : count ≤ s.shift := hlenh ▸ hlegal
    obtain ⟨hunget, hinside⟩ := hs.retreat hcount
    refine ⟨_, _, ?_, ⟨⟨hunget, rfl⟩, hs.kept⟩, hinside⟩
    simp only [machine, unget, if_pos hcount, Option.map_some]
  | peek offset count =>
    obtain ⟨hstart, hlow, hhigh, hshows⟩ := hsound
    -- with the slice at 0 an offset means the same in the slice and in the buffer
    obtain ⟨m, hm⟩ : ∃ m : Nat, (m : Int) = offset + s.shift :=
      ⟨(offset + s.shift).toNat, by omega⟩
    have hplace : (s.view p).place offset = m := by
      rw [place, hlenh]
      omega
    have hfits : m + count ≤ s.length := by
      by_cases hcount : count = 0
      · omega
      · obtain ⟨-, hend⟩ := place_le hcount hlegal
        rw [hplace, hlenh, hlenc] at hend
        omega
    have hassert : offset + s.shift ≥ s.start ∧ offset + s.shift - s.start + count ≤ s.length := by
      omega
    have hoffset : s.start + (m : Int) = offset + s.shift := by omega
    obtain ⟨b', hpeek, hvalid, hkept⟩ := hs.peek hfits (hoffset ▸ hshows)
    rw [hoffset] at hpeek
    obtain ⟨hinside, hslice⟩ := hs.moved hvalid hkept hle
    refine ⟨_, .bytes (((slice p s).drop m).take count), ?_, ⟨⟨?_, ?_⟩, hkept⟩, hinside⟩
    · simp only [machine, peek, if_pos hassert, hpeek, Option.map_some]
    · show (⟨(slice p _).take s.shift, (slice p _).drop s.shift⟩ : Queue) = _
      rw [hslice]
      rfl
    · rw [Queue.peek, view_append, hplace]
  | zap =>
    obtain ⟨hzap, hinside⟩ := hs.advance hs.valid hs.kept (le_refl _)
    rw [Nat.add_sub_cancel' hle] at hzap hinside
    refine ⟨s.zap, _, rfl, ⟨⟨?_, rfl⟩, hs.kept⟩, hinside⟩
    rw [hlenc]
    exact hzap
  | optgettable =>
    have hpeekable : s.length - s.shift ≤ (p.view s.buf).peekable (s.start + s.shift) := by
      have hstart := hs.start_ge
      have hend := hs.end_le
      have hplace := hs.place_add s.shift
      exact le_peekable (by omega) (by omega)
    obtain ⟨hanswers, hclip⟩ := hsound
    obtain ⟨avail, havail, hne⟩ := p.optpeekable_spec hs.valid hanswers
    have hassert : avail ≠ 0 ∨ s.length = s.shift := by
      by_cases hend : s.length = s.shift
      · exact Or.inr hend
      · exact Or.inl (hne (by omega))
    have hclip : s.shift = 0 ∨ avail ≤ s.length - s.shift := hclip.imp_right fun h => h avail havail
    refine ⟨s, .size (min avail s.length), ?_, ⟨⟨rfl, _, rfl, ?_, ?_⟩, hs.kept⟩, hs⟩
    · simp only [machine, optgettable, havail, Option.bind_some, if_pos hassert, Option.map_some]
    · rw [hlenc]
      omega
    · intro hcontent
      have hused : (s.view p).content.length ≠ 0 := fun h => hcontent (length_eq_zero_iff.mp h)
      rw [hlenc] at hused
      have havail := hne (by omega)
      omega

/-- A cursor on a slice of a buffer is a queue with the bytes of the slice, in every run of legal
and sound calls, and the buffer keeps its content. -/
theorem follows_slice {b : β} {start : Int} {length : Nat} (hinside : Inside p ⟨b, start, length, 0⟩) :
    (WvBufCursorStore.mk b start length 0).view p = ⟨[], (p.view b).peek start length⟩ ∧
      ∀ calls, (machine p).Along (fun s call => Legal p s call ∧ Sound p s call)
          ⟨b, start, length, 0⟩ calls → (machine p).Runs (fun s call s' out =>
          Follows (s.view p) call (s'.view p) out ∧ (p.view s.buf).Kept s.start (p.view s'.buf))
          ⟨b, start, length, 0⟩ calls := by
  refine ⟨rfl, fun calls hcalls => ?_⟩
  refine Machine.runs_of_along ?_ hinside hcalls
  rintro s call hs ⟨hlegal, hsound⟩
  exact machine_step hs hlegal hsound

end WvBufCursorStore

/-! ## A linked buffer under a cursor -/

namespace WvLinkedBufferStore

open Option

variable {newbuffer : WvLinkedBufferStore → Nat → WvCircularBufStore} {s s' : WvLinkedBufferStore}
  {buf buf' : WvCircularBufStore} {rest rest' : List WvCircularBufStore} {offset : Int}
  {count : Nat}

theorem coalesce_some (hnew : Fresh newbuffer) {isfirst : Bool} (hbuf : buf.Valid)
    (hrest : ∀ b ∈ rest, b.Valid) (_ : count ≠ 0)
    (htotal : (contents (buf :: rest)).length ≤ s.totalused)
    (h : coalesce newbuffer s isfirst buf rest count = some (buf', rest')) :
    buf'.Valid ∧ (∀ b ∈ rest', b.Valid) ∧ contents (buf' :: rest') = contents (buf :: rest) ∧
      lastBytes s.maxungettable buf'.view.history <:+
        lastBytes s.maxungettable buf.view.history ∧ (isfirst = true → buf.free < count - buf.used →
        lastBytes s.maxungettable buf'.view.history =
          lastBytes s.maxungettable buf.view.history) := by
  have henough : count ≤ (contents (buf :: rest)).length := by
    by_contra hmore
    rw [coalesce_none hbuf hrest (Nat.lt_of_not_le hmore)] at h
    cases h
  obtain ⟨buf₁, rest₁, hcoalesce, hvalid, hvalids, hcontents, -, hsuffix⟩ :=
    coalesce_keeps hnew s isfirst hbuf hrest henough
  rw [h] at hcoalesce
  obtain ⟨rfl, rfl⟩ := Prod.mk.inj (some.inj hcoalesce)
  refine ⟨hvalid, hvalids, hcontents, hsuffix, fun hfirst hfree => ?_⟩
  obtain ⟨buf₁, rest₁, hcoalesce, -, -, -, -, hhistory⟩ :=
    coalesce_spec hnew s isfirst hbuf hrest (by omega) henough
  rw [h] at hcoalesce
  obtain ⟨rfl, rfl⟩ := Prod.mk.inj (some.inj hcoalesce)
  rw [hhistory, if_pos ⟨hfree, hfirst, by omega⟩, lastBytes_lastBytes]

/-- Where the bytes have to be moved together, it is not in the first segment, or that one has no
room for them. -/
def KeepsHistory (s : WvLinkedBufferStore) (offset : Int) (count : Nat) : Prop :=
  ∀ first ∈ s.list.head?, first.used ≤ offset ∨ first.free < count - first.used

theorem lt_used_of_search {o : Int} (hlist : s.list = buf :: rest)
    (h : s.search offset = some (0, o)) : offset < buf.used := by
  rw [search, hlist] at h
  dsimp only at h
  split at h
  · omega
  · obtain ⟨⟨i, o'⟩, hloop, heq⟩ := map_eq_some_iff.mp h
    obtain ⟨rfl, -⟩ := Prod.mk.inj heq
    rw [searchLoop] at hloop
    split at hloop
    · omega
    · obtain ⟨_, -, hnext⟩ := map_eq_some_iff.mp hloop
      exact absurd (congrArg Prod.fst hnext) (Nat.succ_ne_zero _)

/-- What a peek keeps. -/
theorem mutablepeek_keeps (hnew : Fresh newbuffer) (hs : Inv s) {i first : Nat}
    (h : s.mutablepeek newbuffer offset count = some (s', i, first)) :
    Loose s' ∧ s'.history <:+ s.history ∧
      (s.KeepsHistory offset count → s'.history = s.history) := by
  rw [mutablepeek] at h
  by_cases hzero : count = 0
  · rw [if_pos hzero] at h
    obtain ⟨rfl, -⟩ := Prod.mk.inj (some.inj h)
    exact ⟨hs.loose, suffix_refl _, fun _ => rfl⟩
  rw [if_neg hzero] at h
  obtain ⟨⟨j, o⟩, hsearch, h⟩ := bind_eq_some_iff.mp h
  dsimp only at h
  split at h
  · cases h
  rename_i buf rest hdrop
  obtain ⟨⟨buf', rest'⟩, hsegment, h⟩ := bind_eq_some_iff.mp h
  obtain ⟨⟨buf'', place⟩, hpeek, heq⟩ := map_eq_some_iff.mp h
  obtain ⟨rfl, -⟩ := Prod.mk.inj heq
  have hlist : s.list = s.list.take j ++ buf :: rest := by rw [← hdrop, take_append_drop]
  have hall : ∀ b ∈ buf :: rest, b.Valid := fun b hb => hs.valid b (hlist ▸ mem_append_right _ hb)
  obtain ⟨hbuf, hrest⟩ := forall_mem_cons.mp hall
  have htotal : (contents (buf :: rest)).length ≤ s.totalused := by
    rw [hs.total, content, hlist, contents_append, length_append]
    exact Nat.le_add_left _ _
  obtain ⟨hvalid, hvalids, hcontents, hsuffix, hkeeps⟩ :
      buf'.Valid ∧ (∀ b ∈ rest', b.Valid) ∧ contents (buf' :: rest') = contents (buf :: rest) ∧
        lastBytes s.maxungettable buf'.view.history <:+
          lastBytes s.maxungettable buf.view.history ∧ (j = 0 → buf.free < count - buf.used →
          lastBytes s.maxungettable buf'.view.history =
            lastBytes s.maxungettable buf.view.history) := by
    split at hsegment
    · obtain ⟨hvalid, hvalids, hcontents, hsuffix, hkeeps⟩ :=
        coalesce_some hnew hbuf hrest hzero htotal hsegment
      exact ⟨hvalid, hvalids, hcontents, hsuffix, fun hj => hkeeps (decide_eq_true hj)⟩
    · obtain ⟨rfl, rfl⟩ := Prod.mk.inj (some.inj hsegment)
      exact ⟨hbuf, hrest, rfl, suffix_refl _, fun _ _ => rfl⟩
  obtain ⟨hsized, hused⟩ := WvCircularBufStore.mutablepeek_sized hvalid.toSized hpeek
  have hview := WvCircularBufStore.mutablepeek_view hvalid.toSized hpeek
  have hsized' : ∀ b ∈ s.list.take j ++ buf'' :: rest', b.Sized := by
    intro b hb
    rcases mem_append.mp hb with hfront | hback
    · exact (hs.valid b (mem_of_mem_take hfront)).toSized
    · rcases mem_cons.mp hback with rfl | htail
      · exact hsized
      · exact (hvalids b htail).toSized
  refine ⟨⟨hsized', ?_⟩, ?_⟩
  · have hcontent : contents (s.list.take j ++ buf'' :: rest') = s.content := by
      rw [content, hlist, contents_append, contents_append, contents_cons, hview, ← contents_cons,
        hcontents, ← hlist]
    rw [← length_contents_sized hsized', hcontent]
    exact hs.total
  · rw [history, history]
    cases j with
    | succ j =>
      cases hs : s.list with
      | nil => rw [hs] at hdrop; cases hdrop
      | cons first tail => exact ⟨suffix_refl _, fun _ => rfl⟩
    | zero =>
      have hhead : s.list = buf :: rest := hdrop
      rw [hhead]
      dsimp only [take_zero, nil_append]
      rw [hview]
      refine ⟨hsuffix, fun hkeep => hkeeps rfl ?_⟩
      have hlt := lt_used_of_search hhead hsearch
      exact (hkeep buf (by rw [hhead]; rfl)).resolve_left (by omega)

/-- The bytes are in one segment. Or they have to be moved together, when no segment has its head
behind its array, they are such that a peek shows them, and no history is lost. -/
def Shows (s : WvLinkedBufferStore) (start offset : Int) (count : Nat) : Prop :=
  count ≤ s.optpeekable offset ∨
    (∀ buf ∈ s.list, buf.head < buf.data.length) ∧ s.Sound offset count ∧
      (0 ≤ start ∨ s.KeepsHistory offset count)

instance : Decidable (s.Sound offset count) :=
  haveI : Decidable (∃ front, front <+: s.list ∧
      offset = ((front.map WvCircularBufStore.used).sum : Nat)) :=
    decidable_of_iff (∃ front ∈ s.list.inits,
      offset = ((front.map WvCircularBufStore.used).sum : Nat)) (by simp [mem_inits])
  haveI : Decidable (∃ first, s.list.head? = some first ∧ first.free < count - first.used) :=
    decidable_of_iff (∃ first ∈ s.list.head?.toList, first.free < count - first.used) (by simp)
  inferInstanceAs (Decidable (_ ∨ _ ∨ _ ∧ _ ∧ _))

instance {start : Int} : Decidable (s.Shows start offset count) :=
  haveI : Decidable (s.KeepsHistory offset count) :=
    inferInstanceAs (Decidable (∀ first ∈ s.list.head?, _))
  inferInstanceAs (Decidable (_ ∨ _ ∧ _ ∧ (_ ∨ _)))

end WvLinkedBufferStore

namespace LinkedStore

open WvLinkedBufferStore

theorem peek_zero (s : LinkedStore) (offset : Int) : editor.peek s offset 0 = some (s, []) := by
  have hpeek : s.segments.mutablepeek s.newbuffer offset 0 = some (s.segments, 0, 0) := if_pos rfl
  have hread : s.segments.readAt 0 0 0 = [] := by
    rw [readAt]
    split
    · rfl
    · rw [slice_zero]
  have hrelink : s.relink s.segments = s := by cases s <;> rfl
  show Option.map (fun r : WvLinkedBufferStore × Nat × Nat =>
    (s.relink r.1, r.1.readAt r.2.1 r.2.2 0)) (s.segments.mutablepeek s.newbuffer offset 0) = _
  rw [hpeek, Option.map_some, hread, hrelink]

theorem peek_shown {s : LinkedStore} (hs : Loose s.segments) {start offset : Int} {count : Nat}
    (hcount : count ≠ 0) (hstart : 0 ≤ s.segments.view.history.length + start)
    (hmore : count ≤ s.segments.view.peekable offset)
    (hshows : s.segments.Shows start offset count) :
    ∃ s', editor.peek s offset count = some (s', s.segments.view.peek offset count) ∧
      Loose s'.segments ∧ s.segments.view.Kept start s'.segments.view := by
  obtain ⟨hlow, hhigh⟩ := place_le hcount hmore
  have hrange : editor.InRange s offset := by
    rw [place] at hhigh
    show -(s.segments.view.history.length : Int) ≤ offset ∧ offset < s.segments.view.content.length
    omega
  rcases hshows with hone | ⟨hheads, hsound, hkeeps⟩
  · obtain ⟨s', hpeek, hloose, hview⟩ :=
      editor_lawful.peek hs hrange (Nat.pos_of_ne_zero hcount) hone
    have hview' : s'.segments.view = s.segments.view := hview
    refine ⟨s', hpeek, hloose, ?_⟩
    rw [hview']
    exact .refl hstart
  have hinv : Inv s.segments := by
    refine ⟨fun buf hbuf => ⟨hs.sized buf hbuf, hheads buf hbuf⟩, hs.length_content.symm, ?_⟩
    intro hnil
    have hnone : s.segments.view.content.length = 0 ∧ s.segments.view.history.length = 0 := by
      rw [view, WvLinkedBufferStore.content, WvLinkedBufferStore.history, hnil]
      exact ⟨rfl, rfl⟩
    omega
  have hlen : s.segments.view.history.length = s.segments.ungettable := hs.length_history
  have hlenc : s.segments.view.content.length = s.segments.totalused := hs.length_content
  have hpeekable : s.segments.view.peekable offset = s.segments.peekable offset := by
    rw [Queue.peekable, hlen, hlenc]
    rfl
  obtain ⟨linked, i, first, hpeek, hread, hcontent, -⟩ :=
    (peeks_iff_sound s.fresh_newbuffer hinv (by omega) (.inr (hpeekable ▸ hmore))).mpr hsound
  obtain ⟨hloose, hsuffix, hhistory⟩ := mutablepeek_keeps s.fresh_newbuffer hinv hpeek
  refine ⟨s.relink linked, ?_, ?_, ?_⟩
  · show (s.segments.mutablepeek s.newbuffer offset count).map _ = _
    rw [hpeek, ← hread]
    rfl
  · rw [segments_relink]
    exact hloose
  · rw [segments_relink]
    refine ⟨hcontent, hsuffix, ?_⟩
    rcases hkeeps with hpos | hkeep
    · omega
    · have hsame : linked.view.history = s.segments.view.history := hhistory hkeep
      rw [hsame]
      omega

end LinkedStore

/-! ## The kinds of buffers under a cursor -/

namespace WvBufStore.Kind

/-- `optpeekable`. From the end of a linked buffer on, the iterator has no link that its pointer
could be taken from. -/
def optpeekable : (k : Kind) → k.Store → Int → Option Nat
  | .linked, s, offset =>
    if s.segments.list = [] ∨ s.segments.totalused ≤ offset then none
    else some (s.segments.optpeekable offset)
  | k, s, offset => some (k.editor.optpeekable s offset)

def Shows : (k : Kind) → k.Store → Int → Int → Nat → Prop
  | .linked, s, start, offset, count => s.segments.Shows start offset count
  | _, _, _, _, _ => True

/-- There is a segment, and the offset is not behind the content. -/
def Answers : (k : Kind) → k.Store → Int → Prop
  | .linked, s, offset => s.segments.list ≠ [] ∧ offset < s.segments.totalused
  | _, _, _ => True

theorem peek_zero {k : Kind} (s : k.Store) (offset : Int) :
    k.editor.peek s offset 0 = some (s, []) := by
  cases k with
  | linked => exact LinkedStore.peek_zero s offset
  | _ => rfl

/-- All that there is from an offset on comes in one piece. -/
theorem optpeekable_eq {k : Kind} (hk : k ≠ .linked) {s : k.Store} (hs : k.editor.Valid s)
    (offset : Int) : k.editor.optpeekable s offset = (k.view s).peekable offset := by
  cases k with
  | inPlace =>
    show peekable s.used s.ungettable offset = s.view.peekable offset
    rw [Queue.peekable, s.length_content, s.length_history]
    rfl
  | constInPlace =>
    show peekable s.used s.ungettable offset = s.writable.view.peekable offset
    rw [Queue.peekable, s.writable.length_content, s.writable.length_history]
    rfl
  | circular =>
    have hsized : WvCircularBufStore.Sized s := hs
    show peekable s.used s.ungettable offset = (WvCircularBufStore.view s).peekable offset
    rw [Queue.peekable, hsized.length_content, hsized.length_history]
    rfl
  | linked => exact absurd rfl hk
  | null =>
    show 0 = peekable 0 0 offset
    rw [peekable]
    split
    · rfl
    · split
      · split <;> omega
      · omega

theorem peek_shown (k : Kind) {s : k.Store} {start offset : Int} {count : Nat}
    (hs : k.editor.Valid s) (hshows : k.Shows s start offset count)
    (hstart : 0 ≤ (k.view s).history.length + start) (hcount : count ≤ (k.view s).peekable offset) :
    ∃ s', k.editor.peek s offset count = some (s', (k.view s).peek offset count) ∧
      k.editor.Valid s' ∧ (k.view s).Kept start (k.view s') := by
  by_cases hzero : count = 0
  · subst hzero
    exact ⟨s, by rw [k.peek_zero, Queue.peek, take_zero], hs, .refl hstart⟩
  by_cases hk : k = .linked
  · subst hk
    exact LinkedStore.peek_shown hs hzero hstart hcount hshows
  · rw [← editor_view] at hstart hcount ⊢
    obtain ⟨hlow, hhigh⟩ := place_le hzero hcount
    have hrange : k.editor.InRange s offset := by
      rw [place] at hhigh
      show -((k.editor.view s).history.length : Int) ≤ offset ∧
        offset < (k.editor.view s).content.length
      omega
    have hone : count ≤ k.editor.optpeekable s offset := by
      rwa [optpeekable_eq hk hs, ← editor_view]
    obtain ⟨s', hpeek, hvalid, hview⟩ :=
      k.editor_lawful.peek hs hrange (Nat.pos_of_ne_zero hzero) hone
    refine ⟨s', hpeek, hvalid, ?_⟩
    rw [hview]
    exact .refl hstart

theorem optpeekable_answers (k : Kind) {s : k.Store} {offset : Int} (hs : k.editor.Valid s)
    (hanswers : k.Answers s offset) : ∃ n, k.optpeekable s offset = some n ∧
      ((k.view s).peekable offset ≠ 0 → n ≠ 0) := by
  by_cases hk : k = .linked
  · subst hk
    obtain ⟨hsome, hend⟩ := hanswers
    refine ⟨s.segments.optpeekable offset, ?_, fun hmore => ?_⟩
    · exact if_neg (not_or.mpr ⟨hsome, Int.not_le.mpr hend⟩)
    · have hlenc : s.segments.view.content.length = s.segments.totalused := hs.length_content
      obtain ⟨hlow, -⟩ := place_le hmore (le_refl _)
      refine (LinkedStore.editor_lawful.optpeekable hs ⟨?_, ?_⟩).1.ne'
      · show -(s.segments.view.history.length : Int) ≤ offset
        have hlow : 0 ≤ (s.segments.view.history.length : Int) + offset := hlow
        omega
      · show offset < s.segments.view.content.length
        omega
  · refine ⟨k.editor.optpeekable s offset, ?_, fun hmore => ?_⟩
    · cases k with
      | linked => exact absurd rfl hk
      | _ => rfl
    · rwa [optpeekable_eq hk hs]

/-- A buffer of any kind can be peeked at. -/
def peekStore (k : Kind) : PeekStore k.Store where
  view := k.view
  Valid := k.editor.Valid
  optpeekable := k.optpeekable
  peek := k.editor.peek
  Shows := k.Shows
  Answers := k.Answers
  peek_spec := k.peek_shown
  optpeekable_spec := k.optpeekable_answers

instance (k : Kind) (s : k.Store) (start offset : Int) (count : Nat) :
    Decidable (k.peekStore.Shows s start offset count) :=
  match k, s with
  | .linked, s => inferInstanceAs (Decidable (s.segments.Shows start offset count))
  | .inPlace, _ | .constInPlace, _ | .circular, _ | .null, _ => inferInstanceAs (Decidable True)

instance (k : Kind) (s : k.Store) (offset : Int) : Decidable (k.peekStore.Answers s offset) :=
  match k, s with
  | .linked, s =>
    inferInstanceAs (Decidable (s.segments.list ≠ [] ∧ offset < s.segments.totalused))
  | .inPlace, _ | .constInPlace, _ | .circular, _ | .null, _ => inferInstanceAs (Decidable True)

end WvBufStore.Kind

namespace WvBufCursorStore

variable {β : Type} {p : PeekStore β}

theorem peek_shown {s : WvBufCursorStore β} {start offset : Int} {count : Nat} (hs : Inside p s)
    (hshows : Sound p s (.peek offset count)) (hstart : 0 ≤ (s.view p).history.length + start)
    (hcount : count ≤ (s.view p).peekable offset) :
    ∃ s', s.peek p offset count = some (s', (s.view p).peek offset count) ∧ Inside p s' ∧
      (s.view p).Kept start (s'.view p) := by
  obtain ⟨s', out, hstep, ⟨⟨hview, hout⟩, -⟩, hinside⟩ :=
    machine_step hs (show Legal p s (.peek offset count) from hcount) hshows
  obtain ⟨⟨s'', data⟩, hpeek, heq⟩ := Option.map_eq_some_iff.mp hstep
  obtain ⟨rfl, rfl⟩ := Prod.mk.inj heq
  obtain rfl := Out.bytes.inj hout
  refine ⟨s'', hpeek, hinside, ?_⟩
  rw [hview]
  exact .refl hstart

theorem optpeekable_answers {s : WvBufCursorStore β} {offset : Int} (hs : Inside p s)
    (hstart : s.start = 0) (hlow : -s.shift ≤ offset)
    (hhigh : offset < s.length - s.shift ∨ s.length = s.shift)
    (hanswers : p.Answers s.buf (s.start + s.shift + offset)) :
    ∃ n, s.optpeekable p offset = some n ∧ ((s.view p).peekable offset ≠ 0 → n ≠ 0) := by
  have hlenc := hs.length_content
  have hlenh := hs.length_history
  have hle := hs.shift_le
  have hend := hs.end_le
  have hlost := hs.start_ge
  obtain ⟨avail, havail, hne⟩ := p.optpeekable_spec hs.valid hanswers
  have hmore : offset < s.length - s.shift → avail ≠ 0 := by
    intro hoffset
    have hone : 1 ≤ (p.view s.buf).peekable (s.start + s.shift + offset) := by
      refine le_peekable (by omega) ?_
      rw [place] at hend ⊢
      omega
    exact hne (by omega)
  refine ⟨min avail (s.peekable offset), ?_, fun hview => ?_⟩
  · rw [optpeekable, havail, Option.bind_some, if_pos (hhigh.imp_left hmore)]
  · obtain ⟨-, hplace⟩ := place_le hview (le_refl _)
    rw [place, hlenh, hlenc] at hplace
    have havail := hmore (by omega)
    rw [peekable, if_neg (by omega)]
    omega

/-- A cursor on a cursor. -/
def peekStore (p : PeekStore β) : PeekStore (WvBufCursorStore β) where
  view := view p
  Valid := Inside p
  optpeekable := optpeekable p
  peek := peek p
  Shows s _ offset count := Sound p s (.peek offset count)
  Answers s offset := s.start = 0 ∧ -s.shift ≤ offset ∧
    (offset < s.length - s.shift ∨ s.length = s.shift) ∧ p.Answers s.buf (s.start + s.shift + offset)
  peek_spec := peek_shown
  optpeekable_spec hs h := optpeekable_answers hs h.1 h.2.1 h.2.2.1 h.2.2.2

instance (s : WvBufCursorStore β) : (call : Call) → Decidable (Legal p s call)
  | .get count => inferInstanceAs (Decidable (count ≤ (s.view p).content.length))
  | .skip count => inferInstanceAs (Decidable (count ≤ (s.view p).content.length))
  | .unget count => inferInstanceAs (Decidable (count ≤ (s.view p).history.length))
  | .peek offset count => inferInstanceAs (Decidable (count ≤ (s.view p).peekable offset))
  | .zap => inferInstanceAs (Decidable True)
  | .optgettable => inferInstanceAs (Decidable True)

instance [∀ b start offset count, Decidable (p.Shows b start offset count)]
    [∀ b offset, Decidable (p.Answers b offset)] (s : WvBufCursorStore β) :
    (call : Call) → Decidable (Sound p s call)
  | .get count => inferInstanceAs (Decidable (p.Shows s.buf s.start (s.start + s.shift) count))
  | .peek offset count => inferInstanceAs (Decidable (s.start = 0 ∧ -s.shift ≤ offset ∧
      offset ≤ s.length - s.shift ∧ p.Shows s.buf s.start (offset + s.shift) count))
  | .optgettable => inferInstanceAs (Decidable (p.Answers s.buf (s.start + s.shift) ∧ (s.shift = 0 ∨
      ∀ avail ∈ p.optpeekable s.buf (s.start + s.shift), avail ≤ s.length - s.shift)))
  | .skip _ | .unget _ | .zap => inferInstanceAs (Decidable True)

open WvBufStore (Kind)

open LinkedStore (merged reached_merged)

/-- A cursor on the first five bytes of two segments. -/
theorem follows_slice_merged : (machine Kind.linked.peekStore).Runs (fun s call s' out =>
    Follows (s.view Kind.linked.peekStore) call (s'.view Kind.linked.peekStore) out ∧
      (Kind.linked.peekStore.view s.buf).Kept s.start (Kind.linked.peekStore.view s'.buf))
    ⟨merged, 0, 5, 0⟩ [.optgettable, .get 4, .peek (-3) 2, .unget 1, .skip 2, .zap] :=
  (follows_slice ⟨reached_merged.inv.loose, by decide, by decide +kernel, by decide +kernel⟩).2 _
    (by decide +kernel)

def four : Kind.circular.Store := ⟨[1, 2, 3, 4], 0, 4, 4⟩

theorem valid_four : Kind.circular.peekStore.Valid four :=
  ⟨by decide, by decide, by decide⟩

/-- A slice that begins at 1 cannot be peeked at its beginning, and peeking at its second byte
shows its first. When one of two bytes is consumed, two are said to be gettable. In a buffer with
two segments, getting two bytes from the last one of the first segment on shows a byte that is not
there; when all is consumed, `optgettable` cannot be asked. -/
theorem follows_slice_fails :
    Inside Kind.circular.peekStore ⟨four, 1, 2, 0⟩ ∧
      Legal Kind.circular.peekStore ⟨four, 1, 2, 0⟩ (.peek 0 1) ∧
      ((machine Kind.circular.peekStore).step ⟨four, 1, 2, 0⟩ (.peek 0 1)).isNone = true ∧
      Legal Kind.circular.peekStore ⟨four, 1, 2, 0⟩ (.peek 1 1) ∧
      ((machine Kind.circular.peekStore).step ⟨four, 1, 2, 0⟩ (.peek 1 1)).map Prod.snd =
        some (.bytes [2]) ∧
      ((WvBufCursorStore.mk four 1 2 0).view Kind.circular.peekStore).peek 1 1 = [3] ∧
      Inside Kind.circular.peekStore ⟨four, 0, 2, 1⟩ ∧ (WvBufCursorStore.mk four 0 2 1).used = 1 ∧
      (WvBufCursorStore.mk four 0 2 1).optgettable Kind.circular.peekStore = some 2 ∧
      Inside Kind.linked.peekStore ⟨merged, 0, 6, 2⟩ ∧
      Legal Kind.linked.peekStore ⟨merged, 0, 6, 2⟩ (.get 2) ∧
      ((machine Kind.linked.peekStore).step ⟨merged, 0, 6, 2⟩ (.get 2)).map Prod.snd =
        some (.bytes [3, 0]) ∧
      ((WvBufCursorStore.mk merged 0 6 2).view Kind.linked.peekStore).content = [3, 4, 5, 6] ∧
      Inside Kind.linked.peekStore ⟨merged, 0, 6, 6⟩ ∧
      (WvBufCursorStore.mk merged 0 6 6).optgettable Kind.linked.peekStore = none :=
  ⟨⟨valid_four, by decide, by decide +kernel, by decide +kernel⟩, by decide +kernel,
    by decide +kernel, by decide +kernel, by decide +kernel, by decide +kernel,
    ⟨valid_four, by decide, by decide +kernel, by decide +kernel⟩, rfl, by decide +kernel,
    ⟨reached_merged.inv.loose, by decide, by decide +kernel, by decide +kernel⟩,
    by decide +kernel, by decide +kernel, by decide +kernel,
    ⟨reached_merged.inv.loose, by decide, by decide +kernel, by decide +kernel⟩, by decide +kernel⟩

end WvBufCursorStore

end WvStreams
