import WvStreams.Buffers.Store
import WvStreams.Lib.Ring

/-!
# `WvCircularBufStore`

The bytes that can be given back and those to be read are one window of a ring. The store
follows a queue with a history (`refines_queue`) as long as no call of `mutablepeek` compacts a
ring that is full of history: that leaves `head` behind the end of the array. The counts that the
source passes on as `int` are less than 2^31.
-/

namespace WvStreams

open Lib Lib.Ring List Option WvBufStore

structure WvCircularBufStore where
  data : Str
  head : Nat
  totalused : Nat
  totalinit : Nat
  deriving DecidableEq

namespace WvCircularBufStore

def xsize (s : WvCircularBufStore) : Nat := s.data.length

/-- `reset`, and the constructor for an array. -/
def new (data : Str) (avail : Nat) : Option WvCircularBufStore :=
  if avail ≤ data.length then some ⟨data, 0, avail, avail⟩ else none

def setavail (s : WvCircularBufStore) (avail : Nat) : Option WvCircularBufStore :=
  if avail ≤ s.xsize then some { s with head := 0, totalused := avail, totalinit := avail }
  else none

def used (s : WvCircularBufStore) : Nat := s.totalused

def optgettable (s : WvCircularBufStore) : Nat := min (s.xsize - s.head) s.totalused

def ungettable (s : WvCircularBufStore) : Nat := s.totalinit - s.totalused

def free (s : WvCircularBufStore) : Nat := s.xsize - s.totalused

def optallocable (s : WvCircularBufStore) : Nat :=
  let tail := s.head + s.totalused
  if tail ≥ s.xsize then s.xsize - s.totalused else s.xsize - tail

def unallocable (s : WvCircularBufStore) : Nat := s.totalused

/-- The loop of `compact` that swaps the end of the array with what is at `start`. -/
def swapLoop (data : Str) (start end_ headcount tailcount : Nat) : Str × Nat × Nat :=
  if headcount ≤ tailcount ∧ 0 < headcount then
    swapLoop (swap data start end_ headcount) (start + headcount) end_ headcount
      (tailcount - headcount)
  else (data, start, tailcount)
termination_by tailcount

/-- The array with the region moved to its beginning. -/
def compact (data : Str) (size head count : Nat) : Str :=
  if count = 0 then data
  else if head + count ≤ size then move data 0 head count
  else
    let headcount := size - head
    let tailcount := count - headcount
    let freecount := size - count
    if freecount ≥ headcount then move (move data headcount 0 tailcount) 0 head headcount
    else
      let (data, start, tailcount) := swapLoop data 0 head headcount tailcount
      let buf := slice data start tailcount
      blit (move data start head headcount) (start + headcount) buf

def wrapped (s : WvCircularBufStore) (offset : Int) : Nat :=
  ((s.head + offset + s.xsize) % s.xsize).toNat

/-- The store, and where the region begins. The remainder of an empty array is an error. -/
def ensurecontiguous (s : WvCircularBufStore) (offset : Int) (count : Nat) (keephistory : Bool) :
    Option (WvCircularBufStore × Nat) :=
  if s.xsize = 0 then none
  else
    let start := s.wrapped offset
    if count ≠ 0 ∧ start + count > s.xsize then
      -- without the history if that is not kept
      let totalinit := if keephistory then s.totalinit else s.totalused
      let keepstart :=
        if keephistory then (s.head + s.totalused + s.xsize - s.totalinit) % s.xsize
        else s.head % s.xsize
      let s := ⟨compact s.data s.xsize keepstart totalinit, totalinit - s.totalused, s.totalused,
        totalinit⟩
      some (s, s.wrapped offset)
    else some (s, start)

/-- The store, and the pointer. -/
def get (s : WvCircularBufStore) (count : Nat) : Option (WvCircularBufStore × Nat) :=
  if count ≤ s.totalused then
    (s.ensurecontiguous 0 count false).map fun (s, first) =>
      ({ s with head := (s.head + count) % s.xsize, totalused := s.totalused - count }, first)
  else none

def unget (s : WvCircularBufStore) (count : Nat) : Option WvCircularBufStore :=
  if count ≤ s.totalinit - s.totalused ∧ s.xsize ≠ 0 then
    some { s with head := (s.head + s.xsize - count) % s.xsize, totalused := s.totalused + count }
  else none

def zap (s : WvCircularBufStore) : WvCircularBufStore :=
  { s with head := 0, totalused := 0, totalinit := 0 }

def alloc (s : WvCircularBufStore) (count : Nat) : Option (WvCircularBufStore × Nat) :=
  if count ≤ s.xsize - s.totalused then
    -- always discard history
    let s := { s with totalinit := s.totalused }
    (s.ensurecontiguous s.totalused count false).map fun (s, first) =>
      ({ s with totalused := s.totalused + count, totalinit := s.totalinit + count }, first)
  else none

def unalloc (s : WvCircularBufStore) (count : Nat) : Option WvCircularBufStore :=
  if count ≤ s.totalused then
    some { s with totalused := s.totalused - count, totalinit := s.totalinit - count }
  else none

/-- A null pointer is 0: nothing is read or written there. -/
def mutablepeek (s : WvCircularBufStore) (offset : Int) (count : Nat) :
    Option (WvCircularBufStore × Nat) :=
  if count = 0 then some (s, 0)
  else if (if offset ≤ 0 then (-offset).toNat ≤ s.totalinit - s.totalused
      else offset.toNat < s.totalused) then
    s.ensurecontiguous offset count true
  else none

def normalize (s : WvCircularBufStore) : WvCircularBufStore :=
  ⟨compact s.data s.xsize s.head s.totalused, 0, s.totalused, s.totalused⟩

/-! ## The region is moved to the beginning -/

/-- While the loop runs, the region is what is in front of `start`, then the end of the array,
then what is left of the tail. -/
def region (data : Str) (start end_ headcount tailcount : Nat) : Str :=
  slice data 0 start ++ slice data end_ headcount ++ slice data start tailcount

variable {s : WvCircularBufStore} {count m : Nat} {offset : Int} {data : Str}

theorem swapLoop_region {start end_ headcount tailcount : Nat} (hpos : 0 < headcount)
    (h : start + tailcount ≤ end_) (hend : end_ + headcount ≤ data.length) :
    let r := swapLoop data start end_ headcount tailcount
    r.1.length = data.length ∧ r.2.2 < headcount ∧ r.2.1 + r.2.2 = start + tailcount ∧
      region r.1 r.2.1 end_ headcount r.2.2 = region data start end_ headcount tailcount := by
  induction hn : tailcount using Nat.strong_induction_on generalizing data start tailcount with
  | _ n ih =>
    subst hn
    rw [swapLoop]
    split
    · rename_i hmore
      have hrest : start + headcount + (tailcount - headcount) ≤ end_ := by omega
      have hlen : (swap data start end_ headcount).length = data.length :=
        length_swap (by omega) hend
      obtain ⟨hfront, hback, htail⟩ := slice_swap hrest hend
      have hend' : end_ + headcount ≤ (swap data start end_ headcount).length := by omega
      have hless : tailcount - headcount < tailcount := by omega
      obtain ⟨hlength, hlt, hsum, hregion⟩ := ih _ hless hrest hend' rfl
      have hsum' : start + headcount + (tailcount - headcount) = start + tailcount := by omega
      refine ⟨hlength.trans hlen, hlt, hsum.trans hsum', hregion.trans ?_⟩
      have hsplit : tailcount = headcount + (tailcount - headcount) := by omega
      rw [region, region, hfront, hback, htail]
      conv_rhs => rw [hsplit, slice_add]
      simp only [append_assoc]
    · have hlt : tailcount < headcount := by omega
      exact ⟨rfl, hlt, rfl, rfl⟩

theorem slice_room {head headcount tailcount : Nat} (hlen : data.length = head + headcount)
    (hroom : headcount + tailcount ≤ head) :
    let r := move (move data headcount 0 tailcount) 0 head headcount
    r.length = data.length ∧
      slice r 0 (headcount + tailcount) = slice data head headcount ++ slice data 0 tailcount := by
  have hmoved : (move data headcount 0 tailcount).length = data.length :=
    length_move (by omega) (by omega)
  have hsource : head + headcount ≤ (move data headcount 0 tailcount).length := by omega
  have htarget : 0 + headcount ≤ (move data headcount 0 tailcount).length := by omega
  refine ⟨(length_move hsource htarget).trans hmoved, ?_⟩
  rw [slice_add, slice_move hsource htarget, slice_move_after hsource htarget (le_refl _),
    Nat.zero_add, slice_move_after (by omega) (by omega) hroom, slice_move (by omega) (by omega)]

theorem slice_swaps {head headcount tailcount : Nat} (hlen : data.length = head + headcount)
    (hpos : 0 < headcount) (htail : tailcount ≤ head) :
    let (array, start, rest) := swapLoop data 0 head headcount tailcount
    let r := blit (move array start head headcount) (start + headcount) (slice array start rest)
    r.length = data.length ∧
      slice r 0 (headcount + tailcount) = slice data head headcount ++ slice data 0 tailcount := by
  have hstart : 0 + tailcount ≤ head := by omega
  obtain ⟨hlength, hlt, hsum, hregion⟩ := swapLoop_region hpos hstart (le_of_eq hlen.symm)
  generalize swapLoop data 0 head headcount tailcount = r at hlength hlt hsum hregion ⊢
  obtain ⟨array, start, rest⟩ := r
  dsimp only at hlength hlt hsum hregion ⊢
  have hbuf : (slice array start rest).length = rest := length_slice (by omega)
  have hmoved : (move array start head headcount).length = array.length :=
    length_move (by omega) (by omega)
  have hfit : start + headcount + (slice array start rest).length ≤
      (move array start head headcount).length := by omega
  refine ⟨(length_blit hfit).trans (hmoved.trans hlength), ?_⟩
  have hself := slice_blit hfit
  rw [hbuf] at hself
  have hcount : headcount + tailcount = start + headcount + rest := by omega
  rw [hcount, slice_add, Nat.zero_add, hself, slice_blit_before (by omega) (by omega), slice_add,
    Nat.zero_add, slice_move_before (by omega) (by omega), slice_move (by omega) (by omega)]
  simpa [region] using hregion

theorem compact_window {head : Nat} (hhead : head ≤ data.length) (hcount : count ≤ data.length) :
    (compact data data.length head count).length = data.length ∧
      slice (compact data data.length head count) 0 count = ring data head count := by
  rw [compact]
  split
  · rename_i hzero
    rw [hzero, slice_zero, ring_zero]
    exact ⟨rfl, rfl⟩
  · split
    · rename_i hcontiguous
      rw [ring_eq_slice hcontiguous]
      exact ⟨length_move hcontiguous (by omega), slice_move hcontiguous (by omega)⟩
    · have hlen : data.length = head + (data.length - head) := by omega
      have hsplit : count = (data.length - head) + (count - (data.length - head)) := by omega
      have htail : head + count - data.length = count - (data.length - head) := by omega
      rw [ring_wrap hhead hcount (by omega), htail]
      dsimp only
      split
      · have hle : (data.length - head) + (count - (data.length - head)) ≤ head := by omega
        have hroom := slice_room hlen hle
        rwa [← hsplit] at hroom
      · have hle : count - (data.length - head) ≤ head := by omega
        have hswaps := slice_swaps hlen (by omega) hle
        rwa [← hsplit] at hswaps

/-! ## The window -/

/-- Where the bytes that can be given back begin, before it is taken around the ring. -/
def keepstart (s : WvCircularBufStore) : Nat := s.head + s.xsize - s.ungettable

/-- The bytes that can be given back and those to be read. -/
def window (s : WvCircularBufStore) : Str := ring s.data s.keepstart s.totalinit

def view (s : WvCircularBufStore) : Queue :=
  ⟨s.window.take s.ungettable, s.window.drop s.ungettable⟩

/-- The counts fit the array. -/
structure Sized (s : WvCircularBufStore) : Prop where
  pos : 0 < s.xsize
  used_le : s.totalused ≤ s.totalinit
  init_le : s.totalinit ≤ s.xsize

structure Valid (s : WvCircularBufStore) : Prop extends Sized s where
  head_lt : s.head < s.xsize

theorem Sized.length_window (hs : Sized s) : s.window.length = s.totalinit := length_ring hs.init_le

theorem Sized.length_history (hs : Sized s) : s.view.history.length = s.ungettable := by
  have hlen := hs.length_window
  rw [view, length_take, hlen]
  exact Nat.min_eq_left (Nat.sub_le _ _)

theorem Sized.length_content (hs : Sized s) : s.view.content.length = s.totalused := by
  have hlen := hs.length_window
  have hle := hs.used_le
  rw [view, length_drop, hlen, ungettable]
  omega

theorem view_append (s : WvCircularBufStore) : s.view.history ++ s.view.content = s.window :=
  take_append_drop _ _

theorem view_congr {s' : WvCircularBufStore} (hcount : s.ungettable = s'.ungettable)
    (hwindow : s.window = s'.window) : s.view = s'.view := by
  rw [view, view, hcount, hwindow]

/-! ## Without the history -/

def forget (s : WvCircularBufStore) : WvCircularBufStore := { s with totalinit := s.totalused }

theorem Sized.forget (hs : Sized s) : Sized s.forget where
  pos := hs.pos
  used_le := le_refl _
  init_le := hs.used_le.trans hs.init_le

@[simp] theorem ungettable_forget (s : WvCircularBufStore) : s.forget.ungettable = 0 :=
  Nat.sub_self _

theorem Sized.window_forget (hs : Sized s) : s.forget.window = s.window.drop s.ungettable := by
  have hused := hs.used_le
  have hinit := hs.init_le
  have hsum : s.ungettable + s.totalused = s.totalinit := by
    rw [ungettable]
    omega
  have hle : s.ungettable ≤ s.xsize := by omega
  have hstart : s.forget.keepstart = s.keepstart + s.ungettable := by
    have hxsize : s.forget.xsize = s.xsize := rfl
    have hhead : s.forget.head = s.head := rfl
    rw [keepstart, keepstart, ungettable_forget, hxsize, hhead]
    omega
  have hdrop : s.window.drop s.ungettable = ring s.data (s.keepstart + s.ungettable) s.totalused := by
    have hlen : (ring s.data s.keepstart s.ungettable).length = s.ungettable := length_ring hle
    rw [window, ← hsum, ring_add (hsum ▸ hinit), drop_left' hlen]
  rw [hdrop, ← hstart]
  rfl

theorem Sized.view_forget (hs : Sized s) : s.forget.view = s.view.forget := by
  rw [view, hs.window_forget, ungettable_forget, take_zero, drop_zero]
  rfl

/-! ## Compacting -/

def compacted (s : WvCircularBufStore) : WvCircularBufStore :=
  ⟨compact s.data s.xsize (s.keepstart % s.xsize) s.totalinit, s.ungettable, s.totalused, s.totalinit⟩

theorem Sized.compacted (hs : Sized s) :
    s.compacted.xsize = s.xsize ∧ s.compacted.view = s.view := by
  have hstart : s.keepstart % s.xsize ≤ s.data.length := (Nat.mod_lt _ hs.pos).le
  obtain ⟨hlen, hslice⟩ := compact_window hstart hs.init_le
  refine ⟨hlen, view_congr rfl ?_⟩
  have hkeep : s.compacted.keepstart % s.compacted.data.length = 0 % s.compacted.data.length := by
    have hxsize : s.compacted.xsize = s.compacted.data.length := rfl
    have hhead : s.compacted.head = s.ungettable := rfl
    have hungettable : s.compacted.ungettable = s.ungettable := rfl
    rw [keepstart, hxsize, hhead, hungettable, Nat.add_sub_cancel_left, Nat.mod_self, Nat.zero_mod]
  have hfits : 0 + s.totalinit ≤ s.compacted.data.length := by
    have hinit : s.totalinit ≤ s.xsize := hs.init_le
    have hlen' : s.compacted.data.length = s.xsize := hlen
    omega
  have htotal : s.compacted.totalinit = s.totalinit := rfl
  rw [window, ring_congr hkeep, htotal, ring_eq_slice hfits]
  exact hslice.trans (ring_mod _ _ _)

theorem Sized.sized_compacted (hs : Sized s) : Sized s.compacted where
  pos := hs.compacted.1 ▸ hs.pos
  used_le := hs.used_le
  init_le := hs.compacted.1 ▸ hs.init_le

/-! ## The region of an offset -/

theorem Sized.wrapped_eq (hs : Sized s) (hm : (m : Int) = s.ungettable + offset) :
    s.wrapped offset = (s.keepstart + m) % s.xsize := by
  have hle : s.ungettable ≤ s.xsize := (Nat.sub_le _ _).trans hs.init_le
  have hsum : (s.head : Int) + offset + s.xsize = ((s.keepstart + m : Nat) : Int) := by
    rw [keepstart]
    omega
  rw [wrapped, hsum, ← Int.natCast_mod, Int.toNat_natCast]

/-- The region lies in the array: it does not begin anew at the beginning. -/
def Contiguous (s : WvCircularBufStore) (offset : Int) (count : Nat) : Prop :=
  count = 0 ∨ s.wrapped offset + count ≤ s.xsize

theorem Sized.compacted_contiguous (hs : Sized s) (hm : (m : Int) = s.ungettable + offset)
    (hfits : m + count ≤ s.xsize) : s.compacted.Contiguous offset count := by
  by_cases hcount : count = 0
  · exact Or.inl hcount
  · right
    have hkeep : s.compacted.keepstart = s.xsize := by
      rw [keepstart, hs.compacted.1]
      exact Nat.add_sub_cancel_left _ _
    have hlt : m < s.xsize := by omega
    rw [hs.sized_compacted.wrapped_eq hm, hkeep, hs.compacted.1, Nat.add_mod_left,
      Nat.mod_eq_of_lt hlt]
    exact hfits

/-- The one case that puts the head at the end of the array, outside of it. -/
def Overfull (s : WvCircularBufStore) (offset : Int) (count : Nat) : Prop :=
  s.totalused = 0 ∧ s.totalinit = s.xsize ∧ count ≠ 0 ∧ s.wrapped offset + count > s.xsize

/-- What `ensurecontiguous` leaves: the region at the offset is contiguous and begins at the
pointer, and nothing is lost but, where it need not be kept, the history. -/
structure Ensured (s : WvCircularBufStore) (offset : Int) (count : Nat) (s' : WvCircularBufStore)
    (first : Nat) : Prop where
  sized : Sized s'
  xsize_eq : s'.xsize = s.xsize
  used_eq : s'.totalused = s.totalused
  first_eq : first = s'.wrapped offset
  contiguous : s'.Contiguous offset count

theorem ensurecontiguous_kept (hs : Sized s) (hm : (m : Int) = s.ungettable + offset)
    (hfits : m + count ≤ s.xsize) :
    ∃ s' first, s.ensurecontiguous offset count true = some (s', first) ∧
      s.Ensured offset count s' first ∧ s'.totalinit = s.totalinit ∧ s'.view = s.view ∧
      (s.head < s.xsize → ¬ s.Overfull offset count → s'.head < s'.xsize) := by
  have hpos := hs.pos
  rw [ensurecontiguous, if_neg (by omega)]
  dsimp only
  split
  · rename_i hwraps
    have hkeep : s.head + s.totalused + s.xsize - s.totalinit = s.keepstart := by
      have hused := hs.used_le
      rw [keepstart, ungettable]
      omega
    refine ⟨s.compacted, s.compacted.wrapped offset, ?_, ?_, rfl, hs.compacted.2, ?_⟩
    · simp only [if_true, hkeep]
      rfl
    · exact ⟨hs.sized_compacted, hs.compacted.1, rfl, rfl, hs.compacted_contiguous hm hfits⟩
    · intro _ hfull
      rw [hs.compacted.1]
      show s.totalinit - s.totalused < s.xsize
      have hinit := hs.init_le
      have hused := hs.used_le
      by_contra hhead
      exact hfull ⟨by omega, by omega, hwraps⟩
  · rename_i hfree
    refine ⟨s, _, rfl, ⟨hs, rfl, rfl, rfl, ?_⟩, rfl, rfl, fun hhead _ => hhead⟩
    by_cases hcount : count = 0
    · exact Or.inl hcount
    · right
      by_contra hwraps
      exact hfree ⟨hcount, by omega⟩

theorem ensurecontiguous_forgets (hs : Valid s) (hm : (m : Int) = offset)
    (hfits : m + count ≤ s.xsize) :
    ∃ s' first, s.ensurecontiguous offset count false = some (s', first) ∧
      s.Ensured offset count s' first ∧ s'.head < s'.xsize ∧
      (s'.view = s.view ∨ s'.view = s.view.forget) := by
  have hpos := hs.pos
  have hsized := hs.toSized
  rw [ensurecontiguous, if_neg (by omega)]
  dsimp only
  split
  · have hkeep : s.head % s.xsize = s.forget.keepstart % s.xsize := by
      have hstart : s.forget.keepstart = s.head + s.xsize := by
        rw [keepstart, ungettable_forget]
        rfl
      rw [hstart, Nat.add_mod_right]
    refine ⟨s.forget.compacted, s.forget.compacted.wrapped offset, ?_, ?_, ?_, Or.inr ?_⟩
    · simp only [Bool.false_eq_true, if_false, hkeep]
      rfl
    · have hm' : (m : Int) = s.forget.ungettable + offset := by
        rw [ungettable_forget]
        omega
      exact ⟨hsized.forget.sized_compacted, hsized.forget.compacted.1, rfl, rfl,
        hsized.forget.compacted_contiguous hm' hfits⟩
    · rw [hsized.forget.compacted.1]
      have hhead : s.forget.compacted.head = 0 := ungettable_forget s
      rw [hhead]
      exact hpos
    · rw [hsized.forget.compacted.2, hsized.view_forget]
  · rename_i hfree
    refine ⟨s, _, rfl, ⟨hsized, rfl, rfl, rfl, ?_⟩, hs.head_lt, Or.inl rfl⟩
    by_cases hcount : count = 0
    · exact Or.inl hcount
    · right
      by_contra hwraps
      exact hfree ⟨hcount, by omega⟩

theorem Sized.slice_wrapped (hs : Sized s) (hm : (m : Int) = s.ungettable + offset)
    (hcontiguous : s.Contiguous offset count) (hfits : m + count ≤ s.totalinit) :
    slice s.data (s.wrapped offset) count = (s.window.drop m).take count := by
  rcases hcontiguous with rfl | hcontiguous
  · rw [slice_zero, take_zero]
  · rw [window, take_drop_ring hs.init_le hfits, ← ring_eq_slice hcontiguous, hs.wrapped_eq hm]
    exact ring_mod _ _ _

theorem Sized.ring_write (hs : Sized s) {r : Nat} {bytes : Str}
    (hm : (m : Int) = s.ungettable + offset) (hcontiguous : s.Contiguous offset bytes.length)
    (hfits : m + bytes.length + r ≤ s.xsize) :
    (blit s.data (s.wrapped offset) bytes).length = s.data.length ∧
      ring (blit s.data (s.wrapped offset) bytes) s.keepstart (m + bytes.length + r) =
        ring s.data s.keepstart m ++ bytes ++ ring s.data (s.keepstart + m + bytes.length) r := by
  rcases hcontiguous with hnil | hcontiguous
  · have hbytes : bytes = [] := length_eq_zero_iff.mp hnil
    subst hbytes
    rw [blit_nil, append_nil, length_nil, Nat.add_zero, Nat.add_zero]
    exact ⟨rfl, ring_add hfits⟩
  · refine ⟨length_blit hcontiguous, ring_blit hcontiguous ?_ hfits⟩
    have hwrapped := hs.wrapped_eq hm
    rw [hwrapped]
    exact (Nat.mod_mod _ _).symm

/-! ## The calls -/

/-- The calls of a client, with the bytes that it stores at the pointer of an `alloc` or a
`mutablepeek`. -/
inductive Call where
  | get (count : Nat)
  | skip (count : Nat)
  | unget (count : Nat)
  | alloc (bytes : Str)
  | unalloc (count : Nat)
  | peek (offset : Int) (count : Nat)
  | mutablepeek (offset : Int) (bytes : Str)
  | zap
  | normalize
  | setavail (avail : Nat)
  | reset (data : Str) (avail : Nat)

/-- The store after a call, and the bytes that are read at the pointer. -/
def machine : Machine WvCircularBufStore Call Str where
  step s
    | .get count => (s.get count).map fun (s, first) => (s, slice s.data first count)
    | .skip count => (s.get count).map fun (s, _) => (s, [])
    | .unget count => (s.unget count).map fun s => (s, [])
    | .alloc bytes => (s.alloc bytes.length).map fun (s, first) =>
      ({ s with data := blit s.data first bytes }, [])
    | .unalloc count => (s.unalloc count).map fun s => (s, [])
    | .peek offset count => (s.mutablepeek offset count).map fun (s, first) =>
      (s, slice s.data first count)
    | .mutablepeek offset bytes => (s.mutablepeek offset bytes.length).map fun (s, first) =>
      ({ s with data := blit s.data first bytes }, slice s.data first bytes.length)
    | .zap => some (s.zap, [])
    | .normalize => some (s.normalize, [])
    | .setavail avail => (s.setavail avail).map fun s => (s, [])
    | .reset data avail => (new data avail).map fun s => (s, [])

def Legal (s : WvCircularBufStore) : Call → Prop
  | .get count => count ≤ s.used
  | .skip count => count ≤ s.used
  | .unget count => count ≤ s.ungettable
  | .alloc bytes => bytes.length ≤ s.free
  | .unalloc count => count ≤ s.unallocable
  | .peek offset count => count ≤ peekable s.used s.ungettable offset
  | .mutablepeek offset bytes => bytes.length ≤ peekable s.used s.ungettable offset
  | .zap => True
  | .normalize => True
  | .setavail avail => avail ≤ s.xsize
  | .reset data avail => avail ≤ data.length

/-- What the calls need besides: no peek wraps around a ring that is full of history, and no
array is empty. -/
def Sound (s : WvCircularBufStore) : Call → Prop
  | .peek offset count => ¬ s.Overfull offset count
  | .mutablepeek offset bytes => ¬ s.Overfull offset bytes.length
  | .reset data _ => data ≠ []
  | _ => True

/-- What a call does to the queue. A `get` may lose the older history, and an `alloc` loses the
history. -/
def Follows (q : Queue) (call : Call) (q' : Queue) (out : Str) : Prop :=
  match call with
  | .get count => (q' = q.get count ∨ q' = q.forget.get count) ∧ out = q.content.take count
  | .skip count => (q' = q.get count ∨ q' = q.forget.get count) ∧ out = []
  | .unget count => q' = q.unget count ∧ out = []
  | .alloc bytes => q' = q.forget.put bytes ∧ out = []
  | .unalloc count => q' = q.unalloc count ∧ out = []
  | .peek offset count => q' = q ∧ out = q.peek offset count
  | .mutablepeek offset bytes => q' = q.write offset bytes ∧ out = q.peek offset bytes.length
  | .zap => q' = ⟨[], []⟩ ∧ out = []
  | .normalize => q' = q.forget ∧ out = []
  | .setavail avail => (q'.history = [] ∧ q'.content.length = avail) ∧ out = []
  | .reset data avail => q' = ⟨[], data.take avail⟩ ∧ out = []

/-- The counts are those of the queue, and there is always something to get if there is
something left. -/
structure Observed (s : WvCircularBufStore) : Prop where
  used : s.used = s.view.content.length
  ungettable : s.ungettable = s.view.history.length
  free : s.free = s.xsize - s.view.content.length
  optgettable_le : s.optgettable ≤ s.used
  optgettable_ne : s.used ≠ 0 → s.optgettable ≠ 0
  head_lt : s.head < s.xsize

theorem Valid.observed (hs : Valid s) : Observed s where
  used := hs.length_content.symm
  ungettable := hs.length_history.symm
  free := by
    rw [hs.length_content]
    rfl
  optgettable_le := Nat.min_le_right _ _
  optgettable_ne h := by
    have hhead := hs.head_lt
    have hused : s.totalused ≠ 0 := h
    rw [optgettable]
    omega
  head_lt := hs.head_lt

/-! ## One call -/

theorem Sized.ungettable_le (hs : Sized s) : s.ungettable ≤ s.xsize :=
  (Nat.sub_le _ _).trans hs.init_le

theorem window_congr {s' : WvCircularBufStore} (hdata : s'.data = s.data)
    (hinit : s'.totalinit = s.totalinit) (hle : s.ungettable ≤ s.xsize)
    (hle' : s'.ungettable ≤ s.xsize)
    (hhead : (s'.head + s.ungettable) % s.xsize = (s.head + s'.ungettable) % s.xsize) :
    s'.window = s.window := by
  have hxsize : s'.xsize = s.xsize := congrArg length hdata
  rw [window, window, hdata, hinit]
  apply ring_congr
  have hleft : s'.keepstart + (s.ungettable + s'.ungettable) = s'.head + s.ungettable + s.xsize := by
    rw [keepstart, hxsize]
    omega
  have hright : s.keepstart + (s.ungettable + s'.ungettable) = s.head + s'.ungettable + s.xsize := by
    rw [keepstart]
    omega
  apply Nat.ModEq.add_right_cancel' (s.ungettable + s'.ungettable)
  show (s'.keepstart + _) % s.xsize = (s.keepstart + _) % s.xsize
  rw [hleft, hright, Nat.add_mod_right, Nat.add_mod_right, hhead]

theorem Sized.advance (hs : Sized s) (hcount : count ≤ s.totalused) :
    let s' := { s with head := (s.head + count) % s.xsize, totalused := s.totalused - count }
    s'.view = s.view.get count ∧ Valid s' := by
  intro s'
  have hused := hs.used_le
  have hinit := hs.init_le
  have hungettable : s'.ungettable = s.ungettable + count := by
    show s.totalinit - (s.totalused - count) = s.totalinit - s.totalused + count
    omega
  have hle : s'.ungettable ≤ s.xsize := by
    rw [hungettable, ungettable]
    omega
  have hdata : s'.data = s.data := rfl
  have htotal : s'.totalinit = s.totalinit := rfl
  have hwindow : s'.window = s.window := by
    apply window_congr hdata htotal hs.ungettable_le hle
    rw [Nat.mod_add_mod, hungettable]
    congr 1
    omega
  refine ⟨?_, ⟨hs.pos, ?_, hinit⟩, Nat.mod_lt _ hs.pos⟩
  · rw [view, hwindow, hungettable, Queue.get, view, take_add, drop_drop]
  · exact (Nat.sub_le _ _).trans hused

theorem get_spec (hs : Valid s) (hcount : count ≤ s.totalused) :
    ∃ s' first, s.get count = some (s', first) ∧
      (s'.view = s.view.get count ∨ s'.view = s.view.forget.get count) ∧
      slice s'.data first count = s.view.content.take count ∧ Valid s' := by
  have hzero : ((0 : Nat) : Int) = 0 := rfl
  have hfits : 0 + count ≤ s.xsize := by
    have hused := hs.used_le
    have hinit := hs.init_le
    omega
  obtain ⟨s', first, hensure, hensured, -, hview⟩ := ensurecontiguous_forgets hs hzero hfits
  have hused : count ≤ s'.totalused := by
    rw [hensured.used_eq]
    exact hcount
  have hcontent : s'.view.content = s.view.content := by
    rcases hview with h | h
    · rw [h]
    · rw [h]
      rfl
  obtain ⟨hadvance, hvalid⟩ := hensured.sized.advance hused
  refine ⟨_, first, ?_, ?_, ?_, hvalid⟩
  · rw [get, if_pos hcount, hensure]
    rfl
  · rw [hadvance]
    rcases hview with h | h
    · exact Or.inl (by rw [h])
    · exact Or.inr (by rw [h])
  · have hm : ((s'.ungettable : Nat) : Int) = s'.ungettable + 0 := (add_zero _).symm
    have htotal : s'.ungettable + count ≤ s'.totalinit := by
      have hle := hensured.sized.used_le
      rw [ungettable]
      omega
    rw [hensured.first_eq, ← hcontent]
    exact hensured.sized.slice_wrapped hm hensured.contiguous htotal

theorem unget_spec (hs : Valid s) (hcount : count ≤ s.ungettable) :
    ∃ s', s.unget count = some s' ∧ s'.view = s.view.unget count ∧ Valid s' := by
  have hpos := hs.pos
  have hused := hs.used_le
  have hinit := hs.init_le
  have hcount' : count ≤ s.totalinit - s.totalused := hcount
  refine ⟨_, if_pos ⟨hcount, by omega⟩, ?_, ⟨hpos, ?_, hinit⟩, Nat.mod_lt _ hpos⟩
  · generalize hs' : (⟨s.data, (s.head + s.xsize - count) % s.xsize, s.totalused + count,
      s.totalinit⟩ : WvCircularBufStore) = s'
    have hungettable : s'.ungettable = s.ungettable - count := by
      subst hs'
      show s.totalinit - (s.totalused + count) = s.totalinit - s.totalused - count
      omega
    have hdata : s'.data = s.data := by rw [← hs']
    have htotal : s'.totalinit = s.totalinit := by rw [← hs']
    have hhead : s'.head = (s.head + s.xsize - count) % s.xsize := by rw [← hs']
    have hwindow : s'.window = s.window := by
      apply window_congr hdata htotal hs.ungettable_le
      · rw [hungettable]
        exact (Nat.sub_le _ _).trans hs.ungettable_le
      · have hle := hs.ungettable_le
        have hsum : s.head + s.xsize - count + s.ungettable =
            s.head + (s.ungettable - count) + s.xsize := by omega
        rw [hungettable, hhead, Nat.mod_add_mod, hsum, Nat.add_mod_right]
    have hlength := hs.toSized.length_history
    rw [Queue.unget, hlength, view, hwindow, hungettable, view]
    congr 1
    · rw [take_take, Nat.min_eq_left (Nat.sub_le _ _)]
    · have hsplit : s.window.drop (s.ungettable - count) =
          (s.window.take s.ungettable).drop (s.ungettable - count) ++
            s.window.drop s.ungettable := by
        conv_lhs => rw [← take_append_drop s.ungettable s.window]
        rw [drop_append_of_le_length]
        rw [length_take, hs.toSized.length_window, ungettable]
        omega
      exact hsplit
  · show s.totalused + count ≤ s.totalinit
    omega

theorem unalloc_spec (hs : Valid s) (hcount : count ≤ s.totalused) :
    ∃ s', s.unalloc count = some s' ∧ s'.view = s.view.unalloc count ∧ Valid s' := by
  have hused := hs.used_le
  have hinit := hs.init_le
  refine ⟨_, if_pos hcount, ?_, ⟨hs.pos, ?_, ?_⟩, hs.head_lt⟩
  · generalize hs' : (⟨s.data, s.head, s.totalused - count, s.totalinit - count⟩ :
      WvCircularBufStore) = s'
    have hungettable : s'.ungettable = s.ungettable := by
      subst hs'
      show s.totalinit - count - (s.totalused - count) = s.totalinit - s.totalused
      omega
    have hwindow : s'.window = s.window.take (s.totalinit - count) := by
      have hkeep : s'.keepstart = s.keepstart := by
        rw [keepstart, hungettable, ← hs']
        rfl
      rw [window, hkeep, ← hs', window, take_ring hinit (Nat.sub_le _ _)]
    have hlength := hs.toSized.length_content
    have hsum : s.totalinit - count - s.ungettable = s.totalused - count := by
      rw [ungettable]
      omega
    rw [Queue.unalloc, hlength, view, hwindow, hungettable, view]
    congr 1
    · rw [take_take, Nat.min_eq_left]
      rw [ungettable]
      omega
    · rw [drop_take, hsum]
  · show s.totalused - count ≤ s.totalinit - count
    omega
  · show s.totalinit - count ≤ s.xsize
    omega

theorem Valid.with_data (hs : Valid s) (hlen : data.length = s.data.length) :
    Valid { s with data := data } where
  pos := by
    show 0 < data.length
    rw [hlen]
    exact hs.pos
  used_le := hs.used_le
  init_le := by
    show s.totalinit ≤ data.length
    rw [hlen]
    exact hs.init_le
  head_lt := by
    show s.head < data.length
    rw [hlen]
    exact hs.head_lt

theorem alloc_spec {s : WvCircularBufStore} (hs : Valid s) {bytes : Str}
    (hcount : bytes.length ≤ s.free) :
    ∃ s' first, s.alloc bytes.length = some (s', first) ∧
      ({ s' with data := blit s'.data first bytes } : WvCircularBufStore).view =
        s.view.forget.put bytes ∧ Valid { s' with data := blit s'.data first bytes } := by
  have hused := hs.used_le
  have hinit := hs.init_le
  have hfree : bytes.length ≤ s.xsize - s.totalused := hcount
  have hforget : Valid s.forget := ⟨hs.toSized.forget, hs.head_lt⟩
  have hm : ((s.totalused : Nat) : Int) = (s.totalused : Int) := rfl
  have hfits : s.totalused + bytes.length ≤ s.forget.xsize := by
    show s.totalused + bytes.length ≤ s.xsize
    omega
  obtain ⟨r, first, hensure, hensured, hhead, hview⟩ := ensurecontiguous_forgets hforget hm hfits
  have hview' : r.view = s.view.forget := by
    rcases hview with h | h
    · rw [h, hs.toSized.view_forget]
    · rw [h, hs.toSized.view_forget]
      rfl
  have hnone : r.ungettable = 0 := by
    rw [← hensured.sized.length_history, hview']
    rfl
  have hru := hensured.sized.used_le
  have hri := hensured.sized.init_le
  have hrused : r.totalused = s.totalused := hensured.used_eq
  have hrsize : r.xsize = s.xsize := hensured.xsize_eq
  have hrinit : r.totalinit = r.totalused := by
    have hzero : r.totalinit - r.totalused = 0 := hnone
    omega
  have hplace : ((r.totalinit : Nat) : Int) = r.ungettable + (s.totalused : Int) := by
    rw [hnone, hrinit, hrused]
    simp
  have hroom : r.totalinit + bytes.length + 0 ≤ r.xsize := by omega
  obtain ⟨hlen, hring⟩ := hensured.sized.ring_write hplace hensured.contiguous hroom
  rw [← hensured.first_eq] at hlen hring
  refine ⟨⟨r.data, r.head, r.totalused + bytes.length, r.totalinit + bytes.length⟩, first, ?_, ?_, ?_⟩
  · rw [alloc, if_pos hfree]
    show ((s.forget.ensurecontiguous s.totalused bytes.length false).map _) = _
    rw [hensure]
    rfl
  · generalize hs' : (⟨blit r.data first bytes, r.head, r.totalused + bytes.length,
      r.totalinit + bytes.length⟩ : WvCircularBufStore) = s'
    have hungettable : s'.ungettable = 0 := by
      rw [← hs']
      show r.totalinit + bytes.length - (r.totalused + bytes.length) = 0
      omega
    have hkeep : s'.keepstart = r.keepstart := by
      rw [keepstart, keepstart, hungettable, hnone, ← hs']
      show r.head + (blit r.data first bytes).length - 0 = r.head + r.data.length - 0
      rw [hlen]
    have hwindow : s'.window = r.window ++ bytes := by
      rw [window, hkeep, ← hs', window]
      rw [Nat.add_zero, ring_zero, append_nil] at hring
      exact hring
    have hcontent : r.window = s.view.content := by
      have h := congrArg Queue.content hview'
      rw [view, hnone, drop_zero] at h
      exact h
    rw [view, hwindow, hungettable, hcontent]
    rfl
  · have hvalid : Valid ⟨r.data, r.head, r.totalused + bytes.length, r.totalinit + bytes.length⟩ := by
      refine ⟨⟨hensured.sized.pos, ?_, hroom⟩, hhead⟩
      show r.totalused + bytes.length ≤ r.totalinit + bytes.length
      omega
    exact hvalid.with_data hlen

theorem mutablepeek_spec (hs : Sized s) {bytes : Str}
    (hcount : bytes.length ≤ peekable s.used s.ungettable offset) :
    ∃ s' first, s.mutablepeek offset bytes.length = some (s', first) ∧ s'.view = s.view ∧ Sized s' ∧
      slice s'.data first bytes.length = s.view.peek offset bytes.length ∧
      ({ s' with data := blit s'.data first bytes } : WvCircularBufStore).view =
        s.view.write offset bytes ∧ (blit s'.data first bytes).length = s'.data.length ∧
      (s.head < s.xsize → ¬ s.Overfull offset bytes.length → s'.head < s'.xsize) := by
  have hlenh := hs.length_history
  have hlenc := hs.length_content
  have hused := hs.used_le
  have hinit := hs.init_le
  by_cases hnil : bytes = []
  · subst hnil
    have hwrite : s.view.write offset [] = s.view := by
      simp [Queue.write, view]
    refine ⟨s, 0, rfl, rfl, hs, ?_, ?_, ?_, fun hhead _ => hhead⟩
    · rw [length_nil, slice_zero, Queue.peek, take_zero]
    · rw [hwrite, blit_nil]
    · rw [blit_nil]
  · have hne : bytes.length ≠ 0 := fun h => hnil (length_eq_zero_iff.mp h)
    have hpeekable : bytes.length ≤ s.view.peekable offset := by
      rw [Queue.peekable, hlenh, hlenc]
      exact hcount
    obtain ⟨hlow, hhigh⟩ := Queue.place_le hne hpeekable
    rw [hlenh] at hlow
    rw [hlenh, hlenc] at hhigh
    have hplace : ((s.view.place offset : Nat) : Int) = s.ungettable + offset := by
      rw [Queue.place, hlenh]
      omega
    have hsum : s.ungettable + s.totalused = s.totalinit := by
      rw [ungettable]
      omega
    have hfits : s.view.place offset + bytes.length ≤ s.xsize := by omega
    obtain ⟨r, first, hensure, hensured, htotal, hview, hhead⟩ :=
      ensurecontiguous_kept hs hplace hfits
    have hru : r.ungettable = s.ungettable := by
      rw [ungettable, htotal, hensured.used_eq, ungettable]
    have hplace' : ((s.view.place offset : Nat) : Int) = r.ungettable + offset := by
      rw [hru, hplace]
    have hwindow : r.window = s.view.history ++ s.view.content := by
      rw [← hview, view_append]
    have hassert : (if offset ≤ 0 then (-offset).toNat ≤ s.totalinit - s.totalused
        else offset.toNat < s.totalused) := by
      rw [ungettable] at hlow
      split <;> omega
    have hall : s.view.place offset + bytes.length ≤ r.totalinit := by omega
    have hslice := hensured.sized.slice_wrapped hplace' hensured.contiguous hall
    have hri := hensured.sized.init_le
    have hroom : s.view.place offset + bytes.length +
        (r.totalinit - (s.view.place offset + bytes.length)) ≤ r.xsize := by omega
    obtain ⟨hlen, hring⟩ := hensured.sized.ring_write hplace' hensured.contiguous hroom
    rw [← hensured.first_eq] at hslice hlen hring
    refine ⟨r, first, ?_, hview, hensured.sized, ?_, ?_, hlen, hhead⟩
    · rw [mutablepeek, if_neg hne, if_pos hassert]
      exact hensure
    · rw [hslice, hwindow, Queue.peek]
    · generalize hs' : ({ r with data := blit r.data first bytes } : WvCircularBufStore) = s'
      have hungettable : s'.ungettable = r.ungettable := by rw [← hs']; rfl
      have hkeep : s'.keepstart = r.keepstart := by
        rw [keepstart, keepstart, hungettable, ← hs']
        show r.head + (blit r.data first bytes).length - _ = r.head + r.data.length - _
        rw [hlen]
      have hfront : r.window.take (s.view.place offset) =
          ring r.data r.keepstart (s.view.place offset) := take_ring hri (by omega)
      have hback : r.window.drop (s.view.place offset + bytes.length) =
          ring r.data (r.keepstart + (s.view.place offset + bytes.length))
            (r.totalinit - (s.view.place offset + bytes.length)) := drop_ring hri hall
      have hwindow' : s'.window = r.window.take (s.view.place offset) ++ bytes ++
          r.window.drop (s.view.place offset + bytes.length) := by
        rw [Nat.add_sub_cancel' hall, Nat.add_assoc r.keepstart] at hring
        rw [hfront, hback, ← hring, window, hkeep, ← hs']
      rw [view, hwindow', hungettable, hru, Queue.write, hlenh, hwindow]

theorem zap_spec (hs : Valid s) : s.zap.view = ⟨[], []⟩ ∧ Valid s.zap := by
  refine ⟨?_, ⟨hs.pos, le_refl _, Nat.zero_le _⟩, hs.pos⟩
  have hwindow : s.zap.window = [] := ring_zero _ _
  rw [view, hwindow, take_nil, drop_nil]

theorem normalize_spec (hs : Valid s) : s.normalize.view = s.view.forget ∧ Valid s.normalize := by
  have hforget := hs.toSized.forget
  have hkeep : s.forget.keepstart % s.xsize = s.head := by
    have hstart : s.forget.keepstart = s.head + s.xsize := by
      rw [keepstart, ungettable_forget]
      rfl
    rw [hstart, Nat.add_mod_right, Nat.mod_eq_of_lt hs.head_lt]
  have hnormalize : s.normalize = s.forget.compacted := by
    have hsize : s.forget.xsize = s.xsize := rfl
    rw [compacted, ungettable_forget, hsize, hkeep]
    rfl
  rw [hnormalize, hforget.compacted.2, hs.toSized.view_forget]
  refine ⟨rfl, hforget.sized_compacted, ?_⟩
  have hhead : s.forget.compacted.head = 0 := ungettable_forget s
  rw [hhead]
  exact hforget.sized_compacted.pos

theorem new_spec {avail : Nat} (havail : avail ≤ data.length) (hdata : data ≠ []) :
    ∃ s, new data avail = some s ∧ s.view = ⟨[], data.take avail⟩ ∧ Valid s := by
  have hpos : 0 < data.length := length_pos_of_ne_nil hdata
  refine ⟨_, if_pos havail, ?_, ⟨hpos, le_refl _, havail⟩, hpos⟩
  generalize hs : (⟨data, 0, avail, avail⟩ : WvCircularBufStore) = s
  have hungettable : s.ungettable = 0 := by
    rw [← hs]
    exact Nat.sub_self _
  have hwindow : s.window = data.take avail := by
    have hkeep : s.keepstart = data.length := by
      rw [keepstart, hungettable, ← hs]
      exact Nat.zero_add _
    have hzero : data.length % data.length = 0 % data.length := by rw [Nat.mod_self, Nat.zero_mod]
    rw [window, hkeep, ← hs]
    show ring data data.length avail = data.take avail
    rw [ring_congr hzero, ring_eq_slice (by omega)]
    rfl
  rw [view, hwindow, hungettable]
  rfl

theorem setavail_spec (hs : Valid s) {avail : Nat} (havail : avail ≤ s.xsize) :
    ∃ s', s.setavail avail = some s' ∧
      (s'.view.history = [] ∧ s'.view.content.length = avail) ∧ Valid s' := by
  have hdata : s.data ≠ [] := ne_nil_of_length_pos hs.pos
  obtain ⟨s', hnew, hview, hvalid⟩ := new_spec havail hdata
  refine ⟨s', ?_, ?_, hvalid⟩
  · rw [← hnew]
    rfl
  · rw [hview]
    exact ⟨rfl, length_take_of_le havail⟩

/-! ## Runs -/

theorem machine_step (hs : Valid s) {call : Call} (hlegal : s.Legal call) (hsound : s.Sound call) :
    ∃ s' out, machine.step s call = some (s', out) ∧
      Follows s.view call s'.view out ∧ Valid s' := by
  cases call with
  | get count =>
    obtain ⟨s', first, hget, hview, hout, hvalid⟩ := get_spec hs hlegal
    refine ⟨s', slice s'.data first count, ?_, ⟨hview, hout⟩, hvalid⟩
    simp only [machine, hget, map_some]
  | skip count =>
    obtain ⟨s', first, hget, hview, -, hvalid⟩ := get_spec hs hlegal
    refine ⟨s', [], ?_, ⟨hview, rfl⟩, hvalid⟩
    simp only [machine, hget, map_some]
  | unget count =>
    obtain ⟨s', hunget, hview, hvalid⟩ := unget_spec hs hlegal
    refine ⟨s', [], ?_, ⟨hview, rfl⟩, hvalid⟩
    simp only [machine, hunget, map_some]
  | alloc bytes =>
    obtain ⟨s', first, halloc, hview, hvalid⟩ := alloc_spec hs hlegal
    refine ⟨_, [], ?_, ⟨hview, rfl⟩, hvalid⟩
    simp only [machine, halloc, map_some]
  | unalloc count =>
    obtain ⟨s', hunalloc, hview, hvalid⟩ := unalloc_spec hs hlegal
    refine ⟨s', [], ?_, ⟨hview, rfl⟩, hvalid⟩
    simp only [machine, hunalloc, map_some]
  | peek offset count =>
    -- the specification is about stored bytes; it does not matter which
    have hbytes : (replicate count (0 : Byte)).length = count := length_replicate
    have hlegal' := hbytes.symm ▸ hlegal
    obtain ⟨s', first, hpeek, hview, hsized, hout, -, -, hhead⟩ := mutablepeek_spec hs.toSized hlegal'
    rw [hbytes] at hpeek hout hhead
    refine ⟨s', slice s'.data first count, ?_, ⟨hview, hout⟩, hsized, hhead hs.head_lt hsound⟩
    simp only [machine, hpeek, map_some]
  | mutablepeek offset bytes =>
    obtain ⟨s', first, hpeek, -, hsized, hout, hview, hlen, hhead⟩ :=
      mutablepeek_spec hs.toSized hlegal
    have hvalid : Valid s' := ⟨hsized, hhead hs.head_lt hsound⟩
    refine ⟨_, slice s'.data first bytes.length, ?_, ⟨hview, hout⟩, hvalid.with_data hlen⟩
    simp only [machine, hpeek, map_some]
  | zap => exact ⟨s.zap, [], rfl, ⟨(zap_spec hs).1, rfl⟩, (zap_spec hs).2⟩
  | normalize => exact ⟨s.normalize, [], rfl, ⟨(normalize_spec hs).1, rfl⟩, (normalize_spec hs).2⟩
  | setavail avail =>
    obtain ⟨s', hset, hview, hvalid⟩ := setavail_spec hs hlegal
    refine ⟨s', [], ?_, ⟨hview, rfl⟩, hvalid⟩
    simp only [machine, hset, map_some]
  | reset data avail =>
    obtain ⟨s', hnew, hview, hvalid⟩ := new_spec hlegal hsound
    refine ⟨s', [], ?_, ⟨hview, rfl⟩, hvalid⟩
    simp only [machine, hnew, map_some]

/-- A store with an array follows the queue through every run of legal and sound calls, and
none of them fails. -/
theorem refines_queue {data : Str} {avail : Nat} (havail : avail ≤ data.length) (hdata : data ≠ []) :
    ∃ s, new data avail = some s ∧ s.view = ⟨[], data.take avail⟩ ∧ Observed s ∧
      ∀ calls, machine.Along (fun s call => s.Legal call ∧ s.Sound call) s calls →
        machine.Runs (fun s call s' out => Follows s.view call s'.view out ∧ Observed s') s calls := by
  obtain ⟨s, hnew, hview, hvalid⟩ := new_spec havail hdata
  refine ⟨s, hnew, hview, hvalid.observed, fun calls hcalls => ?_⟩
  refine Machine.runs_of_along ?_ hvalid hcalls
  rintro s call hs ⟨hlegal, hsound⟩
  obtain ⟨s', out, hstep, hfollows, hs'⟩ := machine_step hs hlegal hsound
  exact ⟨s', out, hstep, ⟨hfollows, hs'.observed⟩, hs'⟩

instance (s : WvCircularBufStore) : (call : Call) → Decidable (s.Legal call)
  | .get count => inferInstanceAs (Decidable (count ≤ s.used))
  | .skip count => inferInstanceAs (Decidable (count ≤ s.used))
  | .unget count => inferInstanceAs (Decidable (count ≤ s.ungettable))
  | .alloc bytes => inferInstanceAs (Decidable (bytes.length ≤ s.free))
  | .unalloc count => inferInstanceAs (Decidable (count ≤ s.unallocable))
  | .peek offset count =>
    inferInstanceAs (Decidable (count ≤ peekable s.used s.ungettable offset))
  | .mutablepeek offset bytes =>
    inferInstanceAs (Decidable (bytes.length ≤ peekable s.used s.ungettable offset))
  | .zap => inferInstanceAs (Decidable True)
  | .normalize => inferInstanceAs (Decidable True)
  | .setavail avail => inferInstanceAs (Decidable (avail ≤ s.xsize))
  | .reset data avail => inferInstanceAs (Decidable (avail ≤ data.length))

instance (s : WvCircularBufStore) : (call : Call) → Decidable (s.Sound call)
  | .peek offset count =>
    inferInstanceAs (Decidable (¬ (_ ∧ _ ∧ count ≠ 0 ∧ s.wrapped offset + count > s.xsize)))
  | .mutablepeek offset bytes =>
    inferInstanceAs (Decidable (¬ (_ ∧ _ ∧ bytes.length ≠ 0 ∧
      s.wrapped offset + bytes.length > s.xsize)))
  | .reset data _ => inferInstanceAs (Decidable (data ≠ []))
  | .get _ | .skip _ | .unget _ | .alloc _ | .unalloc _ | .zap | .normalize | .setavail _ =>
    inferInstanceAs (Decidable True)

/-- Six bytes go through an array of four. -/
theorem refines_queue_four : ∃ s, new [0, 0, 0, 0] 0 = some s ∧
    machine.Runs (fun s call s' out => Follows s.view call s'.view out ∧ Observed s') s
      [.alloc [1, 2, 3], .get 2, .alloc [4, 5, 6], .get 4, .unget 1] := by
  obtain ⟨s, hnew, -, -, hruns⟩ :=
    refines_queue (show 0 ≤ ([0, 0, 0, 0] : Str).length from Nat.zero_le _) (by decide)
  refine ⟨s, hnew, hruns _ ?_⟩
  cases hnew
  decide +kernel

/-- The array of four is full of history that begins in its middle; the peek puts the head
behind its end, and when the next byte comes there is nothing to get, though a byte is used. -/
theorem refines_queue_fails :
    let calls : List Call :=
      [.alloc [1, 2], .get 2, .alloc [3, 4], .alloc [5, 6], .get 2, .get 2, .peek (-4) 4, .alloc [7]]
    ∃ s, new [0, 0, 0, 0] 0 = some s ∧ machine.Along Legal s calls ∧
      ¬ machine.Runs (fun _ _ s' _ => s'.head < s'.xsize) s calls ∧
      ¬ machine.Runs (fun _ _ s' _ => s'.used ≠ 0 → s'.optgettable ≠ 0) s calls := by
  refine ⟨⟨[0, 0, 0, 0], 0, 0, 0⟩, rfl, ?_, ?_, ?_⟩
  · decide +kernel
  · decide +kernel
  · decide +kernel

end WvCircularBufStore

end WvStreams
