import WvStreams.Buffers.Transfer
import WvStreams.Lib.Ring

/-!
# `WvInPlaceBufStore` and `WvConstInPlaceBufStore`

An array that is read from its beginning on and written behind what is written already. All that
has been read can be given back, and no call moves a byte.
-/

namespace WvStreams

open Lib Lib.Ring List

structure WvInPlaceBufStore where
  data : Str
  readidx : Nat
  writeidx : Nat
  read_le : readidx ≤ writeidx
  write_le : writeidx ≤ data.length
  deriving DecidableEq

namespace WvInPlaceBufStore

def xsize (s : WvInPlaceBufStore) : Nat := s.data.length

/-- `reset`, and the constructor for an array. -/
def new (data : Str) (avail : Nat) : Option WvInPlaceBufStore :=
  if h : avail ≤ data.length then some ⟨data, 0, avail, Nat.zero_le avail, h⟩ else none

def used (s : WvInPlaceBufStore) : Nat := s.writeidx - s.readidx

def ungettable (s : WvInPlaceBufStore) : Nat := s.readidx

def free (s : WvInPlaceBufStore) : Nat := s.xsize - s.writeidx

/-- The store, and the pointer. -/
def get (s : WvInPlaceBufStore) (count : Nat) : Option (WvInPlaceBufStore × Nat) :=
  if h : count ≤ s.writeidx - s.readidx then
    some (⟨s.data, s.readidx + count, s.writeidx,
      (Nat.le_sub_iff_add_le' s.read_le).mp h, s.write_le⟩, s.readidx)
  else none

def unget (s : WvInPlaceBufStore) (count : Nat) : Option WvInPlaceBufStore :=
  if count ≤ s.readidx then
    some ⟨s.data, s.readidx - count, s.writeidx, (Nat.sub_le _ _).trans s.read_le, s.write_le⟩
  else none

def alloc (s : WvInPlaceBufStore) (count : Nat) : Option (WvInPlaceBufStore × Nat) :=
  if h : count ≤ s.xsize - s.writeidx then
    some (⟨s.data, s.readidx, s.writeidx + count, s.read_le.trans (Nat.le_add_right _ _),
      (Nat.le_sub_iff_add_le' s.write_le).mp h⟩, s.writeidx)
  else none

def unalloc (s : WvInPlaceBufStore) (count : Nat) : Option WvInPlaceBufStore :=
  if h : count ≤ s.writeidx - s.readidx then
    some ⟨s.data, s.readidx, s.writeidx - count,
      Nat.le_sub_of_add_le ((Nat.le_sub_iff_add_le' s.read_le).mp h),
      (Nat.sub_le _ _).trans s.write_le⟩
  else none

/-- A null pointer is 0: nothing is read or written there. -/
def mutablepeek (s : WvInPlaceBufStore) (offset : Int) (count : Nat) : Option Nat :=
  if count = 0 then some 0
  else if (if offset ≤ 0 then (-offset).toNat ≤ s.readidx
      else offset.toNat < s.writeidx - s.readidx) then
    some (s.readidx + offset).toNat
  else none

def store (s : WvInPlaceBufStore) (first : Nat) (bytes : Str) : WvInPlaceBufStore :=
  ⟨blit s.data first bytes, s.readidx, s.writeidx, s.read_le,
    s.write_le.trans (length_le_blit s.data first bytes)⟩

def sink : WvBufStore.Sink WvInPlaceBufStore where
  optallocable := free
  alloc := alloc
  unalloc := unalloc
  store := store

def source : WvBufStore.Source WvInPlaceBufStore where
  optgettable := used
  get s count := (s.get count).map fun (s, first) => (s, slice s.data first count)

def view (s : WvInPlaceBufStore) : Queue :=
  ⟨s.data.take s.readidx, (s.data.take s.writeidx).drop s.readidx⟩

variable {s : WvInPlaceBufStore}

theorem view_append (s : WvInPlaceBufStore) :
    s.view.history ++ s.view.content = s.data.take s.writeidx := by
  have htake : s.data.take s.readidx = (s.data.take s.writeidx).take s.readidx := by
    rw [take_take, Nat.min_eq_left s.read_le]
  show s.data.take s.readidx ++ (s.data.take s.writeidx).drop s.readidx = _
  rw [htake, take_append_drop]

theorem length_history (s : WvInPlaceBufStore) : s.view.history.length = s.readidx :=
  length_take_of_le (s.read_le.trans s.write_le)

theorem length_content (s : WvInPlaceBufStore) : s.view.content.length = s.used := by
  show ((s.data.take s.writeidx).drop s.readidx).length = _
  rw [length_drop, length_take_of_le s.write_le]
  rfl

variable {count : Nat}

theorem get_spec (hcount : count ≤ s.used) :
    ∃ s' first, s.get count = some (s', first) ∧ s'.view = s.view.get count ∧
      slice s'.data first count = s.view.content.take count := by
  have hread := s.read_le
  rw [used] at hcount
  have hmin : min count (s.writeidx - s.readidx) = count := by omega
  have htaken : s.view.content.take count = (s.data.drop s.readidx).take count := by
    show ((s.data.take s.writeidx).drop s.readidx).take count = _
    rw [drop_take, take_take, hmin]
  refine ⟨_, s.readidx, dif_pos hcount, ?_, htaken.symm⟩
  rw [Queue.get, htaken]
  show (⟨s.data.take (s.readidx + count), (s.data.take s.writeidx).drop (s.readidx + count)⟩ :
    Queue) = ⟨s.data.take s.readidx ++ _, ((s.data.take s.writeidx).drop s.readidx).drop count⟩
  rw [drop_drop, take_add]

theorem unget_spec (hcount : count ≤ s.ungettable) :
    ∃ s', s.unget count = some s' ∧ s'.view = s.view.unget count := by
  refine ⟨_, if_pos hcount, ?_⟩
  have hle : s.readidx - count ≤ s.readidx := Nat.sub_le _ _
  rw [Queue.unget, length_history]
  show (⟨s.data.take (s.readidx - count), (s.data.take s.writeidx).drop (s.readidx - count)⟩ :
    Queue) = ⟨(s.data.take s.readidx).take (s.readidx - count),
      (s.data.take s.readidx).drop (s.readidx - count) ++ s.view.content⟩
  rw [take_take, Nat.min_eq_left hle, ← view_append,
    drop_append_of_le_length (by rw [length_history]; exact hle)]
  rfl

/-- The bytes that are stored at the pointer of `alloc` come behind the content. -/
theorem alloc_spec {count : Nat} (hcount : count ≤ s.free) :
    ∃ s' first, s.alloc count = some (s', first) ∧ first = s.writeidx ∧ s'.free = s.free - count ∧
      s'.data = s.data ∧
      ∀ bytes, bytes.length = count → (s'.store first bytes).view = s.view.put bytes := by
  have hread := s.read_le
  have hwrite := s.write_le
  rw [free, xsize] at hcount
  refine ⟨_, s.writeidx, dif_pos hcount, rfl, Nat.sub_add_eq _ _ _, rfl, ?_⟩
  rintro bytes rfl
  have hdata : blit s.data s.writeidx bytes =
      s.data.take s.writeidx ++ bytes ++ s.data.drop (s.writeidx + bytes.length) := rfl
  have htake : (s.data.take s.writeidx).length = s.writeidx := length_take_of_le hwrite
  show (⟨(blit s.data s.writeidx bytes).take s.readidx,
    ((blit s.data s.writeidx bytes).take (s.writeidx + bytes.length)).drop s.readidx⟩ : Queue) =
      ⟨s.data.take s.readidx, (s.data.take s.writeidx).drop s.readidx ++ bytes⟩
  have hall : (blit s.data s.writeidx bytes).take (s.writeidx + bytes.length) =
      s.data.take s.writeidx ++ bytes := by
    have hlen : s.writeidx + bytes.length = (s.data.take s.writeidx ++ bytes).length := by
      rw [length_append, htake]
    rw [hdata, hlen, take_left]
  have hfront : (blit s.data s.writeidx bytes).take s.readidx = s.data.take s.readidx := by
    rw [hdata, append_assoc, take_append_of_le_length (by omega), take_take, Nat.min_eq_left hread]
  rw [hall, hfront, drop_append_of_le_length (by omega)]

theorem peek_spec {offset : Int} (hcount : count ≤ WvBufStore.peekable s.used s.ungettable offset) :
    ∃ first, s.mutablepeek offset count = some first ∧
      slice s.data first count = s.view.peek offset count ∧
      ∀ bytes, bytes.length = count → (s.store first bytes).view = s.view.write offset bytes := by
  by_cases hzero : count = 0
  · subst hzero
    refine ⟨0, if_pos rfl, ?_, ?_⟩
    · rw [slice_zero, Queue.peek, take_zero]
    · intro bytes hbytes
      obtain rfl := length_eq_zero_iff.mp hbytes
      have hwrite : s.view.write offset [] = s.view := by
        show (⟨(blit _ _ _).take _, (blit _ _ _).drop _⟩ : Queue) = _
        rw [blit_nil, take_left, drop_left]
      rw [hwrite]
      show (⟨(blit s.data 0 []).take _, ((blit s.data 0 []).take _).drop _⟩ : Queue) = _
      rw [blit_nil]
      rfl
  · have hpeekable : count ≤ s.view.peekable offset := by
      rw [Queue.peekable, length_history, length_content]
      exact hcount
    obtain ⟨hlow, hhigh⟩ := Queue.place_le hzero hpeekable
    have hread := s.read_le
    have hwrite := s.write_le
    rw [length_history] at hlow
    rw [length_history, length_content, used] at hhigh
    have hplace : s.view.place offset = (s.readidx + offset).toNat := by
      rw [Queue.place, length_history]
    have hassert : (if offset ≤ 0 then (-offset).toNat ≤ s.readidx
        else offset.toNat < s.writeidx - s.readidx) := by
      split <;> omega
    refine ⟨s.view.place offset, ?_, ?_, ?_⟩
    · rw [mutablepeek, if_neg hzero, if_pos hassert, hplace]
    · rw [Queue.peek, view_append, slice, drop_take, take_take, Nat.min_eq_left (by omega)]
    · rintro bytes rfl
      have hpart : s.view.place offset + bytes.length ≤ (s.data.take s.writeidx).length := by
        rw [length_take_of_le hwrite]
        omega
      have hwithin := blit_within [] (s.data.drop s.writeidx) hpart
      rw [length_nil, Nat.zero_add, nil_append, nil_append, take_append_drop] at hwithin
      have hlen : (blit (s.data.take s.writeidx) (s.view.place offset) bytes).length =
          s.writeidx := by
        rw [length_blit hpart, length_take_of_le hwrite]
      show (⟨(blit s.data _ bytes).take s.readidx,
        ((blit s.data _ bytes).take s.writeidx).drop s.readidx⟩ : Queue) =
          ⟨(blit _ _ bytes).take _, (blit _ _ bytes).drop _⟩
      rw [view_append, length_history, hwithin, take_left' hlen,
        take_append_of_le_length (by omega)]

end WvInPlaceBufStore

/-- An array that is only read. -/
structure WvConstInPlaceBufStore where
  data : Str
  avail : Nat
  readidx : Nat
  read_le : readidx ≤ avail
  avail_le : avail ≤ data.length
  deriving DecidableEq

namespace WvConstInPlaceBufStore

def used (s : WvConstInPlaceBufStore) : Nat := s.avail - s.readidx

def ungettable (s : WvConstInPlaceBufStore) : Nat := s.readidx

def get (s : WvConstInPlaceBufStore) (count : Nat) : Option (WvConstInPlaceBufStore × Nat) :=
  if h : count ≤ s.avail - s.readidx then
    some (⟨s.data, s.avail, s.readidx + count,
      (Nat.le_sub_iff_add_le' s.read_le).mp h, s.avail_le⟩, s.readidx)
  else none

def unget (s : WvConstInPlaceBufStore) (count : Nat) : Option WvConstInPlaceBufStore :=
  if count ≤ s.readidx then
    some ⟨s.data, s.avail, s.readidx - count, (Nat.sub_le _ _).trans s.read_le, s.avail_le⟩
  else none

def peek (s : WvConstInPlaceBufStore) (offset : Int) (count : Nat) : Option Nat :=
  if count = 0 then some 0
  else if (if offset ≤ 0 then (-offset).toNat ≤ s.readidx
      else offset.toNat < s.avail - s.readidx) then
    some (s.readidx + offset).toNat
  else none

def source : WvBufStore.Source WvConstInPlaceBufStore where
  optgettable := used
  get s count := (s.get count).map fun (s, first) => (s, slice s.data first count)

def writable (s : WvConstInPlaceBufStore) : WvInPlaceBufStore :=
  ⟨s.data, s.readidx, s.avail, s.read_le, s.avail_le⟩

def view (s : WvConstInPlaceBufStore) : Queue := s.writable.view

variable {s : WvConstInPlaceBufStore}

theorem get_writable (count : Nat) : s.writable.get count =
    (s.get count).map fun (s, first) => (s.writable, first) := by
  rw [WvInPlaceBufStore.get, get]
  show (if h : count ≤ s.avail - s.readidx then _ else _) = _
  by_cases h : count ≤ s.avail - s.readidx
  · rw [dif_pos h, dif_pos h]
    rfl
  · rw [dif_neg h, dif_neg h]
    rfl

theorem unget_writable (count : Nat) : s.writable.unget count = (s.unget count).map writable := by
  rw [WvInPlaceBufStore.unget, unget]
  show (if count ≤ s.readidx then _ else _) = _
  by_cases h : count ≤ s.readidx
  · rw [if_pos h, if_pos h]
    rfl
  · rw [if_neg h, if_neg h]
    rfl

theorem get_spec {count : Nat} (hcount : count ≤ s.used) :
    ∃ s' first, s.get count = some (s', first) ∧ s'.view = s.view.get count ∧
      slice s'.data first count = s.view.content.take count := by
  obtain ⟨w, first, hget, hview, hslice⟩ := WvInPlaceBufStore.get_spec (s := s.writable) hcount
  rw [get_writable] at hget
  obtain ⟨⟨s', first'⟩, hget', heq⟩ := Option.map_eq_some_iff.mp hget
  obtain ⟨rfl, rfl⟩ := Prod.mk.inj heq
  exact ⟨s', first', hget', hview, hslice⟩

theorem unget_spec {count : Nat} (hcount : count ≤ s.ungettable) :
    ∃ s', s.unget count = some s' ∧ s'.view = s.view.unget count := by
  obtain ⟨w, hunget, hview⟩ := WvInPlaceBufStore.unget_spec (s := s.writable) hcount
  rw [unget_writable] at hunget
  obtain ⟨s', hunget', rfl⟩ := Option.map_eq_some_iff.mp hunget
  exact ⟨s', hunget', hview⟩

theorem peek_spec {offset : Int} {count : Nat}
    (hcount : count ≤ WvBufStore.peekable s.used s.ungettable offset) :
    ∃ first, s.peek offset count = some first ∧
      slice s.data first count = s.view.peek offset count := by
  obtain ⟨first, hpeek, hslice, -⟩ := WvInPlaceBufStore.peek_spec (s := s.writable) hcount
  exact ⟨first, hpeek, hslice⟩

end WvConstInPlaceBufStore

end WvStreams
