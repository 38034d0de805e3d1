import Mathlib.Data.List.TakeWhile
import WvStreams.Buffers.Transfer
import WvStreams.Lib.Ring

/-!
# What the calls of a store make of its queue

The laws of the calls that write a store (`Writer.Lawful`), read it (`Reader.Lawful`) and change
bytes where they are (`Editor.Lawful`), whatever the store is. `put` and `basicmerge` move bytes
from one queue to another by them, and where memory is allocated among the history it is lost.
-/

namespace WvStreams

open Lib.Ring List Queue

namespace WvBufStore

/-! ## Writing -/

/-- A store that is written, and the queue that it is. -/
structure Writer (σ : Type) extends Sink σ where
  Valid : σ → Prop
  view : σ → Queue
  free : σ → Nat
  /-- The memory for more bytes is not where the history is. -/
  Keeps : σ → Prop

namespace Writer

variable {σ : Type}

/-- The store has allocated memory of `n` bytes at the pointer, and has room for some more. -/
structure Grown (w : Writer σ) (s : σ) (n room : Nat) (s' : σ) (first : Nat) : Prop where
  valid : ∀ bytes, bytes.length = n → w.Valid (w.store s' first bytes)
  room : ∀ bytes, bytes.length = n → room ≤ w.free (w.store s' first bytes)
  kept : w.Keeps s → ∀ bytes, bytes.length = n →
    w.view (w.store s' first bytes) = (w.view s).put bytes ∧
      ((w.view s).history = [] ∨ w.Keeps (w.store s' first bytes))
  forgotten : ¬ w.Keeps s → ∀ bytes, bytes.length = n →
    w.view (w.store s' first bytes) = (w.view s).forget.put bytes
  parts : ∀ xs ys, xs.length + ys.length ≤ n →
    w.store (w.store s' first xs) (first + xs.length) ys = w.store s' first (xs ++ ys)

structure Lawful (w : Writer σ) : Prop where
  optallocable : ∀ {s}, w.Valid s → 0 < w.free s → 0 < w.optallocable s
  alloc : ∀ {s n room}, w.Valid s → 0 < n → n ≤ w.optallocable s → n + room ≤ w.free s →
    ∃ s' first, w.alloc s n = some (s', first) ∧ w.Grown s n room s' first

def Holds (w : Writer σ) (P : σ → Prop) : Content σ := fun s content room =>
  w.Valid s ∧ (w.view s).content = content ∧ room ≤ w.free s ∧ P s

/-- More bytes leave the history as it is, or nothing of it. -/
def Extended (w : Writer σ) (s s' : σ) : Prop :=
  (w.Keeps s → (w.view s').history = (w.view s).history ∧ ((w.view s).history = [] ∨ w.Keeps s')) ∧
  (¬ w.Keeps s → (w.view s').history = [])

variable {w : Writer σ}

theorem Grown.extended {s s' : σ} {n room first : Nat} (h : w.Grown s n room s' first) {bytes : Str}
    (hbytes : bytes.length = n) : w.Extended s (w.store s' first bytes) := by
  constructor
  · intro hkeeps
    obtain ⟨hview, hleft⟩ := h.kept hkeeps bytes hbytes
    refine ⟨?_, hleft⟩
    rw [hview]
    rfl
  · intro hkeeps
    exact congrArg history (h.forgotten hkeeps bytes hbytes)

theorem Grown.content {s s' : σ} {n room first : Nat} (h : w.Grown s n room s' first) {bytes : Str}
    (hbytes : bytes.length = n) :
    (w.view (w.store s' first bytes)).content = (w.view s).content ++ bytes := by
  by_cases hkeeps : w.Keeps s
  · rw [(h.kept hkeeps bytes hbytes).1]
    rfl
  · rw [h.forgotten hkeeps bytes hbytes]
    rfl

theorem Lawful.writes (h : w.Lawful) {P : σ → Prop}
    (hP : ∀ {s s'}, P s → w.Extended s s' → P s') : Writes w.toSink (w.Holds P) where
  optallocable := by
    rintro s content room ⟨hs, -, hroom, -⟩ hpos
    exact h.optallocable hs (hpos.trans_le hroom)
  alloc := by
    rintro s content room n ⟨hs, rfl, hroom, hp⟩ hpos hopt
    obtain ⟨s', first, halloc, hgrown⟩ := h.alloc hs hpos hopt hroom
    refine ⟨s', first, halloc, fun bytes hbytes => ?_, hgrown.parts⟩
    exact ⟨hgrown.valid bytes hbytes, hgrown.content hbytes, hgrown.room bytes hbytes,
      hP hp (hgrown.extended hbytes)⟩

end Writer

/-! ## Reading -/

/-- A store that is read, and the queue that it is. -/
structure Reader (τ : Type) extends Source τ where
  unget : τ → Nat → Option τ
  Valid : τ → Prop
  view : τ → Queue

namespace Reader

variable {τ : Type}

structure Lawful (r : Reader τ) : Prop where
  optgettable : ∀ {t}, r.Valid t → (r.view t).content ≠ [] → 0 < r.optgettable t
  get : ∀ {t n}, r.Valid t → n ≤ (r.view t).content.length →
    ∃ t', r.get t n = some (t', (r.view t).content.take n) ∧ r.Valid t' ∧
      (r.view t').content = (r.view t).content.drop n ∧ ∃ kept, kept <:+ (r.view t).history ∧
        (r.view t').history = kept ++ (r.view t).content.take n
  unget : ∀ {t n}, r.Valid t → n ≤ (r.view t).history.length →
    ∃ t', r.unget t n = some t' ∧ r.Valid t' ∧ r.view t' = (r.view t).unget n

/-- The store has the content, and what can be given back are the bytes that were in front of it
in `all`. -/
def Has (r : Reader τ) (all : Str) (t : τ) (content : Str) : Prop :=
  r.Valid t ∧ (r.view t).content = content ∧ (r.view t).history ++ content <:+ all

theorem Lawful.reads {r : Reader τ} (h : r.Lawful) (all : Str) : Reads r.toSource (r.Has all) where
  optgettable := by
    rintro t content ⟨ht, rfl, -⟩ hne
    exact h.optgettable ht hne
  get := by
    rintro t content n ⟨ht, rfl, hall⟩ - - hn
    obtain ⟨t', hget, hvalid, hcontent, kept, hkept, hhistory⟩ := h.get ht hn
    refine ⟨t', hget, hvalid, hcontent, ?_⟩
    rw [hhistory, append_assoc, take_append_drop]
    obtain ⟨older, holder⟩ := hkept
    refine (show kept ++ (r.view t).content <:+ _ from ⟨older, ?_⟩).trans hall
    rw [← append_assoc, holder]

end Reader

theorem basicmerge_view {σ τ : Type} {w : Writer σ} {r : Reader τ} (hw : w.Lawful) (hr : r.Lawful)
    {s : σ} {t : τ} (hs : w.Valid s) (ht : r.Valid t) {count : Nat}
    (hcount : count ≤ (r.view t).content.length) (hfree : count ≤ w.free s) :
    ∃ s' t', basicmerge w.toSink r.toSource s t count = some (s', t') ∧ w.Valid s' ∧ r.Valid t' ∧
      (w.view s').content = (w.view s).content ++ (r.view t).content.take count ∧
      ((w.view s').history = (w.view s).history ∨ (w.view s').history = []) ∧
      (r.view t').content = (r.view t).content.drop count ∧
      (r.view t').history ++ (r.view t').content <:+ (r.view t).history ++ (r.view t).content := by
  let P : σ → Prop := fun s' =>
    (w.view s').history = (w.view s).history ∨ (w.view s').history = []
  have hP : ∀ {s₁ s₂}, P s₁ → w.Extended s₁ s₂ → P s₂ := by
    rintro s₁ s₂ hp ⟨hkept, hforgot⟩
    by_cases hk : w.Keeps s₁
    · exact hp.imp ((hkept hk).1.trans ·) ((hkept hk).1.trans ·)
    · exact Or.inr (hforgot hk)
  obtain ⟨s', t', hmerge, ⟨hvalid, hcontent, -, hp⟩, hvalid', hcontent', hall⟩ :=
    @basicmerge_spec _ _ _ _ _ _ (hw.writes hP) (hr.reads ((r.view t).history ++ (r.view t).content))
      s t _ _ _ 0 ⟨hs, rfl, hfree, Or.inl rfl⟩ ⟨ht, rfl, suffix_refl _⟩
      hcount
  refine ⟨s', t', hmerge, hvalid, hvalid', hcontent, hp, hcontent', ?_⟩
  rw [hcontent']
  exact hall

/-! ## Bytes where they are -/

/-- A store whose bytes are looked at and changed where they are. `peek` returns the bytes at its
pointer, and `overwrite` is `mutablepeek` with bytes that are stored at its pointer. -/
structure Editor (σ : Type) where
  used : σ → Nat
  optpeekable : σ → Int → Nat
  peek : σ → Int → Nat → Option (σ × Str)
  overwrite : σ → Int → Str → Option σ
  Valid : σ → Prop
  Writable : σ → Prop
  view : σ → Queue

namespace Editor

variable {σ : Type}

def matchLoop (e : Editor σ) (bytelist : Str) (reverse : Bool) (avail : Nat) (s : σ) (offset : Nat) :
    Option (σ × Nat) :=
  if _h : offset < avail then
    let len := e.optpeekable s offset
    (e.peek s offset len).bind fun (s, str) =>
      match str.findIdx? fun ch => if reverse then bytelist.contains ch else !bytelist.contains ch with
      | some i => some (s, offset + i)
      -- an empty run is looked at again and again
      | none => if _h : 0 < len then matchLoop e bytelist reverse avail s (offset + len) else none
  else some (s, if reverse then offset else 0)
termination_by avail - offset

/-- `WvBufBase::_match`: `match`, or `notmatch` if it is reversed. -/
def _match (e : Editor σ) (s : σ) (bytelist : Str) (reverse : Bool) : Option (σ × Nat) :=
  matchLoop e bytelist reverse (e.used s) s 0

def pokeLoop (e : Editor σ) (s : σ) (offset : Int) (data : Str) : Option σ :=
  if data = [] then some s
  else
    let amount := min (e.optpeekable s offset) data.length
    if _h : 0 < amount then
      (e.overwrite s offset (data.take amount)).bind fun s =>
        pokeLoop e s (offset + amount) (data.drop amount)
    else none
termination_by data.length
decreasing_by
  rw [List.length_drop]
  omega

def poke (e : Editor σ) (put : σ → Str → Option σ) (s : σ) (data : Str) (offset : Int) : Option σ :=
  let limit : Int := e.used s
  if offset ≤ limit then
    let «end» := offset + data.length
    if «end» ≥ limit then
      let count := data.length - («end» - limit).toNat
      (put s (data.drop count)).bind fun s => pokeLoop e s offset (data.take count)
    else pokeLoop e s offset data
  else none

/-- An offset from which on there are bytes. -/
def InRange (e : Editor σ) (s : σ) (offset : Int) : Prop :=
  -((e.view s).history.length : Int) ≤ offset ∧ offset < (e.view s).content.length

structure Lawful (e : Editor σ) : Prop where
  used : ∀ {s}, e.Valid s → e.used s = (e.view s).content.length
  optpeekable : ∀ {s offset}, e.Valid s → e.InRange s offset →
    0 < e.optpeekable s offset ∧ offset + e.optpeekable s offset ≤ (e.view s).content.length
  peek : ∀ {s offset count}, e.Valid s → e.InRange s offset → 0 < count →
    count ≤ e.optpeekable s offset →
    ∃ s', e.peek s offset count = some (s', (e.view s).peek offset count) ∧ e.Valid s' ∧
      e.view s' = e.view s
  overwrite : ∀ {s offset bytes}, e.Valid s → e.Writable s → e.InRange s offset →
    0 < bytes.length → bytes.length ≤ e.optpeekable s offset →
    ∃ s', e.overwrite s offset bytes = some s' ∧ e.Valid s' ∧ e.Writable s' ∧
      e.view s' = (e.view s).write offset bytes

end Editor

end WvBufStore

/-! ## Regions of a queue -/

namespace Queue

variable {q : Queue} {offset : Int}

theorem write_eq (q : Queue) (offset : Int) (bytes : Str) : q.write offset bytes =
    ⟨(blit (q.history ++ q.content) (q.place offset) bytes).take q.history.length,
      (blit (q.history ++ q.content) (q.place offset) bytes).drop q.history.length⟩ := rfl

theorem write_nil (q : Queue) (offset : Int) : q.write offset [] = q := by
  rw [write_eq, blit_nil, take_left, drop_left]

theorem write_natCast {bytes : Str} {i : Nat} :
    q.write (i : Nat) bytes = ⟨q.history, blit q.content i bytes⟩ := by
  have hplace : q.place (i : Nat) = q.history.length + i := by
    rw [place]
    omega
  have hblit : blit (q.history ++ q.content) (q.history.length + i) bytes =
      q.history ++ blit q.content i bytes := by
    rw [blit, take_length_add_append, Nat.add_assoc, drop_length_add_append,
      append_assoc, append_assoc]
    simp only [blit, append_assoc]
  rw [write_eq, hplace, hblit, take_left, drop_left]

theorem peek_natCast (q : Queue) (i count : Nat) :
    q.peek (i : Nat) count = (q.content.drop i).take count := by
  have hplace : q.place (i : Nat) = q.history.length + i := by
    rw [place]
    omega
  rw [peek, hplace, drop_length_add_append]

end Queue

namespace WvBufStore.Editor

variable {σ : Type} {e : Editor σ}

/-! ## The loops -/

theorem takeWhile_of_findIdx? {α : Type} {p : α → Bool} {l : List α} {i : Nat}
    (h : l.findIdx? p = some i) :
    (l.takeWhile fun a => !p a).length = i ∧ i < l.length ∧ ∃ a ∈ l, p a = true := by
  induction l generalizing i with
  | nil => cases h
  | cons a l ih =>
    rw [findIdx?_cons] at h
    cases hp : p a with
    | true =>
      rw [hp, if_pos rfl] at h
      obtain rfl := Option.some.inj h
      exact ⟨by simp [hp], by simp, a, mem_cons_self, hp⟩
    | false =>
      rw [hp, if_neg Bool.false_ne_true] at h
      obtain ⟨j, hj, rfl⟩ := Option.map_eq_some_iff.mp h
      obtain ⟨hlen, hlt, b, hb, hpb⟩ := ih hj
      exact ⟨by simp [hp, hlen], by simpa using hlt, b, mem_cons_of_mem a hb, hpb⟩

def counts (bytelist : Str) (reverse : Bool) (c : Byte) : Bool :=
  if reverse then !bytelist.contains c else bytelist.contains c

theorem not_counts (bytelist : Str) (reverse : Bool) :
    (fun ch => if reverse then bytelist.contains ch else !bytelist.contains ch) =
      fun ch => !counts bytelist reverse ch := by
  funext ch
  cases reverse <;> simp [counts]

/-- What the loop comes to from an offset on. -/
def matched (bytelist : Str) (reverse : Bool) (content : Str) (offset : Nat) : Nat :=
  if ∀ c ∈ content.drop offset, counts bytelist reverse c = true then
    if reverse then content.length else 0
  else offset + ((content.drop offset).takeWhile (counts bytelist reverse)).length

theorem matchLoop_spec (h : e.Lawful) (bytelist : Str) (reverse : Bool) {s : σ} (hs : e.Valid s)
    {offset : Nat} (hoffset : offset ≤ (e.view s).content.length) :
    ∃ s', e.matchLoop bytelist reverse (e.view s).content.length s offset =
        some (s', matched bytelist reverse (e.view s).content offset) ∧
      e.Valid s' ∧ e.view s' = e.view s := by
  obtain ⟨n, hn⟩ : ∃ n, n = (e.view s).content.length - offset := ⟨_, rfl⟩
  induction n using Nat.strong_induction_on generalizing s offset with
  | _ n ih =>
    rw [matchLoop]
    by_cases hlt : offset < (e.view s).content.length
    · have hrange : e.InRange s offset := ⟨by omega, by omega⟩
      obtain ⟨hpos, hend⟩ := h.optpeekable hs hrange
      obtain ⟨s', hpeek, hs', hview⟩ := h.peek hs hrange hpos (Nat.le_refl _)
      generalize e.optpeekable s offset = len at hpos hend hpeek
      have hsplit : (e.view s).content.drop offset =
          ((e.view s).content.drop offset).take len ++ (e.view s).content.drop (offset + len) := by
        rw [← drop_drop, take_append_drop]
      rw [dif_pos hlt]
      dsimp only
      rw [hpeek, Option.bind_some, peek_natCast, not_counts]
      generalize ((e.view s).content.drop offset).take len = str at hsplit ⊢
      cases hfound : str.findIdx? fun ch => !counts bytelist reverse ch with
      | some i =>
        obtain ⟨hlen, hi, c, hc, hnot⟩ := takeWhile_of_findIdx? hfound
        have hcounted : (str.takeWhile (counts bytelist reverse)).length = i := by
          simpa only [Bool.not_not] using hlen
        have hsome : ¬ ∀ c ∈ (e.view s).content.drop offset, counts bytelist reverse c = true := by
          intro hall
          rw [hsplit] at hall
          rw [hall c (mem_append_left _ hc)] at hnot
          cases hnot
        refine ⟨s', ?_, hs', hview⟩
        rw [matched, if_neg hsome, hsplit, takeWhile_append, if_neg (by omega), hcounted]
      | none =>
        have hall : ∀ c ∈ str, counts bytelist reverse c = true := by
          intro c hc
          simpa using findIdx?_eq_none_iff.mp hfound c hc
        have hstr : str.length = len := by
          have hlen := congrArg length hsplit
          rw [length_append, length_drop, length_drop] at hlen
          omega
        obtain ⟨s'', hloop, hs'', hview'⟩ := @ih _ (by rw [hview]; omega) s' hs'
          (offset + len) (by rw [hview]; omega) rfl
        rw [hview] at hloop hview'
        refine ⟨s'', ?_, hs'', hview'⟩
        rw [dif_pos hpos]
        refine hloop.trans (congrArg (fun n => some (s'', n)) ?_)
        rw [matched, matched]
        by_cases hrest : ∀ c ∈ (e.view s).content.drop (offset + len), counts bytelist reverse c = true
        · have hboth : ∀ c ∈ (e.view s).content.drop offset, counts bytelist reverse c = true := by
            rw [hsplit]
            exact forall_mem_append.mpr ⟨hall, hrest⟩
          rw [if_pos hrest, if_pos hboth]
        · have hmore : ¬ ∀ c ∈ (e.view s).content.drop offset, counts bytelist reverse c = true := by
            rw [hsplit]
            exact fun hboth => hrest (forall_mem_append.mp hboth).2
          rw [if_neg hrest, if_neg hmore, hsplit, takeWhile_append_of_pos hall,
            length_append, hstr, Nat.add_assoc]
    · have hdrop : (e.view s).content.drop offset = [] := drop_eq_nil_of_le (by omega)
      have hsame : offset = (e.view s).content.length := by omega
      have hnone : ∀ c ∈ (e.view s).content.drop offset, counts bytelist reverse c = true := by
        rw [hdrop]
        exact forall_mem_nil _
      refine ⟨s, ?_, hs, rfl⟩
      rw [dif_neg hlt, matched, if_pos hnone, ← hsame]

theorem match_spec (h : e.Lawful) (bytelist : Str) (reverse : Bool) {s : σ} (hs : e.Valid s) :
    ∃ s', e._match s bytelist reverse =
        some (s', matched bytelist reverse (e.view s).content 0) ∧ e.view s' = e.view s := by
  obtain ⟨s', hloop, -, hview⟩ := matchLoop_spec h bytelist reverse hs (Nat.zero_le _)
  refine ⟨s', ?_, hview⟩
  rw [_match, h.used hs]
  exact hloop

theorem matched_eq_iff (bytelist : Str) (reverse : Bool) (content : Str) :
    matched bytelist reverse content 0 =
        (content.takeWhile (counts bytelist reverse)).length ↔
      ¬ (reverse = false ∧ content ≠ [] ∧ ∀ c ∈ content, counts bytelist reverse c = true) := by
  rw [matched, drop_zero]
  by_cases hall : ∀ c ∈ content, counts bytelist reverse c = true
  · rw [if_pos hall, takeWhile_eq_self_iff.mpr hall]
    cases reverse with
    | true => simp
    | false =>
      rw [if_neg Bool.false_ne_true, eq_comm, length_eq_zero_iff]
      constructor
      · rintro hnil ⟨-, hne, -⟩
        exact hne hnil
      · intro hnot
        by_contra hne
        exact hnot ⟨rfl, hne, hall⟩
  · rw [if_neg hall, Nat.zero_add]
    simp [hall]

end WvBufStore.Editor

end WvStreams
