import WvStreams.Lib.Machine
import WvStreams.Lib.Ring
import WvStreams.Strings.CNumber

/-!
# `WvMagicCircle`

A circular queue with one byte to spare, so that a full circle differs from an empty one. Its
indices are of type `int`, and lengths of type `size_t`. The shared memory is there if `WvShmZone`
asks for it: the zone has the two indices too, and its size is an `int`, so that the last eight
capacities are out of reach.
-/

namespace WvStreams

open Lib Lib.Ring List Option

structure WvShmZone where
  size : Int
  buf : Str

structure WvMagicCircle where
  circle : Str
  head : Int
  tail : Int
  size : Int

/-- What is made an `int`. -/
def int_of (n : Int) : Int := n.bmod (2 ^ 32)

/-- With what `mmap` gives; none if the assertion fails. -/
def WvShmZone.new (size : Nat) (buf : Str) : Option WvShmZone :=
  if 0 < int_of size then some ⟨int_of size, buf⟩ else none

namespace WvMagicCircle

/-- The zone begins with `head` and `tail`. -/
def new (size : Nat) (buf : Str) : Option WvMagicCircle :=
  (WvShmZone.new (size_of_int (size + 1 + 2 * 4)) buf).bind fun shm =>
    if 0 < int_of size then
      some ⟨shm.buf.drop (2 * 4), 0, 0, int_of (size_of_int (size + 1))⟩
    else none

/-- The bytes that may be read; none if an assertion fails. -/
def used (s : WvMagicCircle) : Option Nat :=
  let x := int_of (s.tail - s.head)
  let x := if x < 0 then int_of (x + s.size) else x
  if 0 ≤ x ∧ x < s.size then some (size_of_int x) else none

def left (s : WvMagicCircle) : Option Nat :=
  s.used.map fun (used : Nat) => size_of_int (s.size - used - 1)

/-- `memcpy` into the circle; none if that is not inside of it. -/
def copy_in (circle : Str) (i : Int) (data : Str) : Option Str :=
  if 0 ≤ i ∧ i + data.length ≤ circle.length then some (blit circle i.toNat data) else none

/-- `memcpy` out of the circle. -/
def copy_out (circle : Str) (i : Int) (len : Nat) : Option Str :=
  if 0 ≤ i ∧ i + len ≤ circle.length then some (slice circle i.toNat len) else none

def advance (i : Int) (len : Nat) (s : WvMagicCircle) : Int :=
  int_of (size_of_int (i + len) % size_of_int s.size : Nat)

/-- The two copies of `put`: up to the end of the circle, and on from its beginning. -/
def write_at (i : Int) (data : Str) (s : WvMagicCircle) : Option Str :=
  let chunk1 := size_of_int (s.size - i)
  let chunk1 := if data.length < chunk1 then data.length else chunk1
  (copy_in s.circle i (data.take chunk1)).bind fun circle =>
    if chunk1 < data.length then copy_in circle 0 (data.drop chunk1) else some circle

/-- The two copies of `get`. -/
def read_at (i : Int) (len : Nat) (s : WvMagicCircle) : Option Str :=
  let chunk1 := size_of_int (s.size - i)
  let chunk1 := if chunk1 > len then len else chunk1
  (copy_out s.circle i chunk1).bind fun data =>
    if chunk1 < len then (copy_out s.circle 0 (len - chunk1)).map (data ++ ·) else some data

def put (data : Str) (s : WvMagicCircle) : Option (WvMagicCircle × Nat) :=
  s.left.bind fun max =>
    let len := if data.length > max then max else data.length
    (s.write_at s.tail (data.take len)).map fun circle =>
      ({ s with circle, tail := s.advance s.tail len }, len)

def get (len : Nat) (s : WvMagicCircle) : Option (WvMagicCircle × Str) :=
  s.used.bind fun max =>
    let len := if len > max then max else len
    (s.read_at s.head len).map fun data => ({ s with head := s.advance s.head len }, data)

def skip (len : Nat) (s : WvMagicCircle) : Option (WvMagicCircle × Nat) :=
  s.used.map fun max =>
    let len := if len > max then max else len
    ({ s with head := s.advance s.head len }, len)

/-- The circle holds a queue, and has room for `n` bytes. -/
structure Holds (n : Nat) (queue : Str) (s : WvMagicCircle) : Prop where
  size : s.size = n + 1
  length : s.circle.length = n + 1
  head : 0 ≤ s.head ∧ s.head ≤ n
  tail : 0 ≤ s.tail ∧ s.tail ≤ n
  fits : queue.length ≤ n
  tail_eq : s.tail = (s.head + queue.length) % (n + 1)
  ring : ring s.circle s.head.toNat queue.length = queue

variable {n : Nat} {queue : Str} {s : WvMagicCircle}

theorem int_of_eq {x : Int} (h : -2 ^ 31 ≤ x) (h' : x < 2 ^ 31) : int_of x = x :=
  Int.bmod_eq_of_le (by omega) (by omega)

theorem size_of_int_eq {x : Int} (h : 0 ≤ x) (h' : x < 2 ^ 64) : size_of_int x = x.toNat := by
  rw [size_of_int, Int.emod_eq_of_lt h h']

theorem Holds.tail_cases (h : Holds n queue s) :
    (s.head + queue.length ≤ n ∧ s.tail = s.head + queue.length) ∨
      (n < s.head + queue.length ∧ s.tail = s.head + queue.length - (n + 1)) := by
  have hhead := h.head
  have hfits := h.fits
  by_cases hle : s.head + queue.length ≤ n
  · refine Or.inl ⟨hle, ?_⟩
    rw [h.tail_eq, Int.emod_eq_of_lt (by omega) (by omega)]
  · refine Or.inr ⟨by omega, ?_⟩
    rw [h.tail_eq, ← Int.sub_emod_right, Int.emod_eq_of_lt (by omega) (by omega)]

theorem Holds.used_eq (h : Holds n queue s) (hn : n ≤ 2 ^ 31 - 2) : s.used = some queue.length := by
  have hsize := h.size
  have hhead := h.head
  have htail := h.tail
  have hfits := h.fits
  have hx : int_of (s.tail - s.head) = s.tail - s.head := int_of_eq (by omega) (by omega)
  have hwrapped : (if s.tail - s.head < 0 then int_of (s.tail - s.head + s.size)
      else s.tail - s.head) = queue.length := by
    rcases h.tail_cases with ⟨hle, heq⟩ | ⟨hlt, heq⟩
    · rw [if_neg (by omega)]
      omega
    · rw [if_pos (by omega), int_of_eq (by omega) (by omega)]
      omega
  rw [used, hx, hwrapped, if_pos (by omega), size_of_int_eq (by omega) (by omega), Int.toNat_natCast]

theorem Holds.left_eq (h : Holds n queue s) (hn : n ≤ 2 ^ 31 - 2) :
    s.left = some (n - queue.length) := by
  have hsize := h.size
  have hfits := h.fits
  rw [left, h.used_eq hn, map_some, size_of_int_eq (by omega) (by omega)]
  congr 1
  omega

theorem Holds.advance_eq (h : Holds n queue s) (hn : n ≤ 2 ^ 31 - 2) {i : Int} (hi : 0 ≤ i)
    (hi' : i ≤ n) {len : Nat} (hlen : len ≤ n) : s.advance i len = (i + len) % (n + 1) := by
  have hsize : size_of_int s.size = n + 1 := by
    rw [h.size, size_of_int_eq (by omega) (by omega)]
    rfl
  have hlt := Int.emod_lt_of_pos (i + len) (show (0 : Int) < n + 1 by omega)
  have hpos := Int.emod_nonneg (i + len) (show (n + 1 : Int) ≠ 0 by omega)
  have hsum : ((size_of_int (i + len) % size_of_int s.size : Nat) : Int) = (i + len) % (n + 1) := by
    rw [hsize, size_of_int_eq (by omega) (by omega), Int.natCast_mod, Int.toNat_of_nonneg (by omega)]
    rfl
  rw [advance, hsum, int_of_eq (by omega) (by omega)]

theorem Holds.drop (h : Holds n queue s) (hn : n ≤ 2 ^ 31 - 2) {len : Nat}
    (hlen : len ≤ queue.length) :
    Holds n (queue.drop len) { s with head := s.advance s.head len } := by
  have hhead := h.head
  have hfits := h.fits
  have hlength := h.length
  have hadvance := h.advance_eq hn hhead.1 hhead.2 (by omega : len ≤ n)
  have hlt := Int.emod_lt_of_pos (s.head + len) (show (0 : Int) < n + 1 by omega)
  have hpos := Int.emod_nonneg (s.head + len) (show (n + 1 : Int) ≠ 0 by omega)
  have hsum : s.head + len + ((queue.length - len : Nat) : Int) = s.head + queue.length := by omega
  obtain ⟨head, hnat⟩ := Int.eq_ofNat_of_zero_le hhead.1
  have hcast : (s.head + len) % (n + 1) = (((head + len) % s.circle.length : Nat) : Int) := by
    rw [hnat, hlength, Int.natCast_mod]
    rfl
  refine ⟨h.size, hlength, ?_, h.tail, ?_, ?_, ?_⟩
  · rw [hadvance]
    exact ⟨hpos, Int.lt_add_one_iff.mp hlt⟩
  · rw [length_drop]
    omega
  · rw [hadvance, length_drop, Int.emod_add_emod, hsum]
    exact h.tail_eq
  · have hring := h.ring
    rw [hnat, Int.toNat_natCast] at hring
    have hdrop : (Ring.ring s.circle head queue.length).drop len =
        Ring.ring s.circle (head + len) (queue.length - len) := drop_ring (by omega) hlen
    rw [hadvance, hcast, Int.toNat_natCast, ring_mod, length_drop, ← hdrop, hring]

theorem clip_eq (len max : Nat) : (if len > max then max else len) = min len max := by
  split <;> omega

theorem Holds.skip_spec (h : Holds n queue s) (hn : n ≤ 2 ^ 31 - 2) (len : Nat) :
    ∃ s', s.skip len = some (s', min len queue.length) ∧ Holds n (queue.drop len) s' := by
  have hdrop := h.drop hn (Nat.min_le_right len queue.length)
  rw [← drop_eq_drop_min] at hdrop
  refine ⟨_, ?_, hdrop⟩
  rw [skip, h.used_eq hn, map_some]
  rw [clip_eq]

variable {i : Nat}

theorem copy_out_eq {circle : Str} {len : Nat} (h : i + len ≤ circle.length) :
    copy_out circle i len = some (slice circle i len) := by
  rw [copy_out, if_pos (by omega), Int.toNat_natCast]

theorem copy_in_eq {circle data : Str} (h : i + data.length ≤ circle.length) :
    copy_in circle i data = some (blit circle i data) := by
  rw [copy_in, if_pos (by omega), Int.toNat_natCast]

theorem Holds.chunk_eq (h : Holds n queue s) (hn : n ≤ 2 ^ 31 - 2) (hi : i < s.circle.length) :
    size_of_int (s.size - i) = s.circle.length - i := by
  have hsize := h.size
  have hlength := h.length
  rw [size_of_int_eq (by omega) (by omega)]
  omega

theorem Holds.read_at_eq (h : Holds n queue s) (hn : n ≤ 2 ^ 31 - 2) {len : Nat}
    (hi : i < s.circle.length) (hlen : len ≤ s.circle.length) :
    s.read_at i len = some (Ring.ring s.circle i len) := by
  rw [read_at, h.chunk_eq hn hi]
  by_cases hle : s.circle.length - i > len
  · rw [if_pos hle, copy_out_eq (by omega), bind_some, if_neg (by omega), ring_eq_slice (by omega)]
  · rw [if_neg hle, copy_out_eq (by omega), bind_some, ring_wrap (by omega) hlen (by omega)]
    have hcount : len - (s.circle.length - i) = i + len - s.circle.length := by omega
    rw [hcount]
    split
    · rw [show (0 : Int) = ((0 : Nat) : Int) from rfl, copy_out_eq (by omega), map_some]
    · rw [show i + len - s.circle.length = 0 by omega, slice_zero, append_nil]

theorem Holds.write_at_eq (h : Holds n queue s) (hn : n ≤ 2 ^ 31 - 2) {start m : Nat} {data : Str}
    (hi : i < s.circle.length) (hstart : (start + m) % s.circle.length = i % s.circle.length)
    (hlen : m + data.length ≤ s.circle.length) :
    ∃ circle, s.write_at i data = some circle ∧ circle.length = s.circle.length ∧
      Ring.ring circle start (m + data.length) = Ring.ring s.circle start m ++ data := by
  rw [write_at, h.chunk_eq hn hi]
  by_cases hle : data.length < s.circle.length - i
  · refine ⟨blit s.circle i data, ?_, length_blit (by omega), ?_⟩
    · rw [if_pos hle, take_length, copy_in_eq (by omega), bind_some, if_neg (by omega)]
    · have hblit := ring_blit (r := 0) (by omega : i + data.length ≤ s.circle.length) hstart hlen
      rw [Nat.add_zero, ring_zero, append_nil] at hblit
      exact hblit
  · have hfirst : (data.take (s.circle.length - i)).length = s.circle.length - i := by
      rw [length_take]
      omega
    have hlength := length_blit (by omega : i + (data.take (s.circle.length - i)).length ≤
      s.circle.length)
    have hrest : (data.drop (s.circle.length - i)).length = data.length - (s.circle.length - i) :=
      length_drop
    refine ⟨blit (blit s.circle i (data.take (s.circle.length - i))) 0
      (data.drop (s.circle.length - i)), ?_, ?_, ?_⟩
    · rw [if_neg hle, copy_in_eq (by omega), bind_some]
      split
      · rw [show (0 : Int) = ((0 : Nat) : Int) from rfl, copy_in_eq (by omega)]
      · rw [drop_eq_nil_of_le (by omega), blit_nil]
    · rw [length_blit (by omega), hlength]
    · have hone := ring_blit (r := 0)
        (by omega : i + (data.take (s.circle.length - i)).length ≤ s.circle.length) hstart (by omega)
      have hzero : (start + (m + (s.circle.length - i))) % s.circle.length = 0 := by
        rw [← Nat.add_assoc, Nat.add_mod, hstart, ← Nat.add_mod, Nat.add_sub_cancel' hi.le,
          Nat.mod_self]
      have hzero' : (start + (m + (s.circle.length - i))) %
          (blit s.circle i (data.take (s.circle.length - i))).length =
            0 % (blit s.circle i (data.take (s.circle.length - i))).length := by
        rw [hlength, hzero, Nat.zero_mod]
      have hfits : 0 + (data.drop (s.circle.length - i)).length ≤
          (blit s.circle i (data.take (s.circle.length - i))).length := by omega
      have htwo := ring_blit (r := 0) hfits hzero' (by omega)
      have hsum : m + (s.circle.length - i) + (data.length - (s.circle.length - i)) =
          m + data.length := by omega
      rw [Nat.add_zero, ring_zero, append_nil, hfirst] at hone
      rw [Nat.add_zero, ring_zero, append_nil, hrest, hsum, hone, append_assoc,
        take_append_drop] at htwo
      exact htwo

theorem Holds.toNat_head (h : Holds n queue s) : ∃ head : Nat, s.head = head ∧ head < s.circle.length ∧
    Ring.ring s.circle head queue.length = queue := by
  have hhead := h.head
  have hlength := h.length
  have hring := h.ring
  obtain ⟨head, hnat⟩ := Int.eq_ofNat_of_zero_le hhead.1
  rw [hnat, Int.toNat_natCast] at hring
  exact ⟨head, hnat, by omega, hring⟩

theorem Holds.get_spec (h : Holds n queue s) (hn : n ≤ 2 ^ 31 - 2) (len : Nat) :
    ∃ s', s.get len = some (s', queue.take len) ∧ Holds n (queue.drop len) s' := by
  have hdrop := h.drop hn (Nat.min_le_right len queue.length)
  have hlength := h.length
  have hfits := h.fits
  obtain ⟨head, hnat, hlt, hring⟩ := h.toNat_head
  rw [← drop_eq_drop_min] at hdrop
  refine ⟨_, ?_, hdrop⟩
  have htake : Ring.ring s.circle head (min len queue.length) = queue.take len := by
    rw [← take_ring (by omega) (Nat.min_le_right _ _), hring, ← take_eq_take_min]
  rw [get, h.used_eq hn, bind_some]
  dsimp only
  rw [clip_eq]
  have hread := h.read_at_eq hn hlt (by omega : min len queue.length ≤ s.circle.length)
  rw [hnat, hread, map_some, htake]

theorem Holds.put_spec (h : Holds n queue s) (hn : n ≤ 2 ^ 31 - 2) (data : Str) :
    ∃ s', s.put data = some (s', min data.length (n - queue.length)) ∧
      Holds n (queue ++ data.take (n - queue.length)) s' := by
  have hhead := h.head
  have hlength := h.length
  have hfits := h.fits
  have htail := h.tail
  obtain ⟨head, hnat, hlt, hring⟩ := h.toNat_head
  obtain ⟨tail, htnat⟩ := Int.eq_ofNat_of_zero_le htail.1
  have htake : data.take (min data.length (n - queue.length)) = data.take (n - queue.length) := by
    rw [Nat.min_comm, ← take_eq_take_min]
  have hcount : (data.take (n - queue.length)).length = min data.length (n - queue.length) := by
    rw [length_take, Nat.min_comm]
  have hindex : (head + queue.length) % s.circle.length = tail % s.circle.length := by
    have htail_eq := h.tail_eq
    rw [hnat, htnat] at htail_eq
    have htail_nat : tail = (head + queue.length) % s.circle.length := by
      rw [hlength]
      exact_mod_cast htail_eq
    rw [htail_nat, Nat.mod_mod]
  have hroom : queue.length + (data.take (n - queue.length)).length ≤ s.circle.length := by omega
  obtain ⟨circle, hwrite, hcircle, hqueue⟩ := h.write_at_eq hn
    (by omega : tail < s.circle.length) hindex hroom
  have hadvance := h.advance_eq hn htail.1 htail.2
    (by omega : min data.length (n - queue.length) ≤ n)
  refine ⟨{ s with
    circle, tail := s.advance s.tail (min data.length (n - queue.length)) }, ?_, ?_⟩
  · rw [put, h.left_eq hn, bind_some]
    dsimp only
    rw [clip_eq, htake, htnat, hwrite, map_some]
  · have hlt' := Int.emod_lt_of_pos (s.tail + (min data.length (n - queue.length) : Nat))
      (show (0 : Int) < n + 1 by omega)
    have hpos := Int.emod_nonneg (s.tail + (min data.length (n - queue.length) : Nat))
      (show (n + 1 : Int) ≠ 0 by omega)
    refine ⟨h.size, hcircle.trans hlength, hhead, ?_, ?_, ?_, ?_⟩
    · rw [hadvance]
      exact ⟨hpos, Int.lt_add_one_iff.mp hlt'⟩
    · rw [length_append, hcount]
      omega
    · rw [hadvance, length_append, hcount, h.tail_eq, Int.emod_add_emod, Int.natCast_add,
        Int.add_assoc]
    · rw [hnat, Int.toNat_natCast, length_append, hqueue, hring]

inductive Op where
  | put (data : Str)
  | get (len : Nat)
  | skip (len : Nat)

structure Answer where
  len : Nat
  data : Str := []

/-- The circle as a machine; a step fails with an assertion, or with a copy that is not inside of
the array. -/
def machine : Machine WvMagicCircle Op Answer where
  step s
    | .put data => (s.put data).map fun (s, len) => (s, ⟨len, []⟩)
    | .get len => (s.get len).map fun (s, data) => (s, ⟨data.length, data⟩)
    | .skip len => (s.skip len).map fun (s, len) => (s, ⟨len, []⟩)

/-- A queue of bytes with a capacity. -/
def reference (n : Nat) (queue : Str) : Op → Str × Answer
  | .put data => (queue ++ data.take (n - queue.length), ⟨min data.length (n - queue.length), []⟩)
  | .get len => (queue.drop len, ⟨min len queue.length, queue.take len⟩)
  | .skip len => (queue.drop len, ⟨min len queue.length, []⟩)

def beside (n : Nat) : Machine (WvMagicCircle × Str) Op (Answer × Answer) where
  step p op := (machine.step p.1 op).map fun (s, answer) =>
    ((s, (reference n p.2 op).1), answer, (reference n p.2 op).2)

/-- What can be seen of the circle is what the queue says. -/
structure Agrees (n : Nat) (s : WvMagicCircle) (queue : Str) : Prop where
  used : s.used = some queue.length
  left : s.left = some (n - queue.length)
  fits : queue.length ≤ n
  head : 0 ≤ s.head ∧ s.head ≤ n
  tail : 0 ≤ s.tail ∧ s.tail ≤ n

theorem Holds.agrees (h : Holds n queue s) (hn : n ≤ 2 ^ 31 - 2) : Agrees n s queue :=
  ⟨h.used_eq hn, h.left_eq hn, h.fits, h.head, h.tail⟩

theorem Holds.step (h : Holds n queue s) (hn : n ≤ 2 ^ 31 - 2) (op : Op) :
    ∃ s', machine.step s op = some (s', (reference n queue op).2) ∧
      Holds n (reference n queue op).1 s' := by
  cases op with
  | put data =>
    obtain ⟨s', hput, hs'⟩ := h.put_spec hn data
    refine ⟨s', ?_, hs'⟩
    simp only [machine, hput, map_some, reference]
  | get len =>
    obtain ⟨s', hget, hs'⟩ := h.get_spec hn len
    refine ⟨s', ?_, hs'⟩
    simp only [machine, hget, map_some, reference, length_take]
  | skip len =>
    obtain ⟨s', hskip, hs'⟩ := h.skip_spec hn len
    refine ⟨s', ?_, hs'⟩
    simp only [machine, hskip, map_some, reference]

theorem zone_new {buf : Str} (hn : n ≤ 2 ^ 31 - 10) :
    WvShmZone.new (size_of_int (n + 1 + 2 * 4)) buf = some ⟨n + 9, buf⟩ := by
  have hsize : ((size_of_int (n + 1 + 2 * 4) : Nat) : Int) = n + 9 := by
    rw [size_of_int_eq (by omega) (by omega)]
    omega
  rw [WvShmZone.new, hsize, int_of_eq (by omega) (by omega), if_pos (by omega)]

/-- The size of the zone is the least `int` or one of the next seven. -/
theorem new_none {buf : Str} (hn : 2 ^ 31 - 10 < n) (hn' : n ≤ 2 ^ 31 - 2) : new n buf = none := by
  have hsize : ((size_of_int (n + 1 + 2 * 4) : Nat) : Int) = n + 9 := by
    rw [size_of_int_eq (by omega) (by omega)]
    omega
  have hint : int_of ((n : Int) + 9) = n + 9 - 2 ^ 32 := by
    rw [int_of, Int.bmod_def]
    omega
  rw [new, WvShmZone.new, hsize, hint, if_neg (by omega), bind_none]

theorem holds_new (hpos : 0 < n) (hn : n ≤ 2 ^ 31 - 10) {buf : Str} (hbuf : buf.length = n + 9) :
    ∃ s, new n buf = some s ∧ Holds n [] s := by
  have hsize : int_of (size_of_int (n + 1)) = n + 1 := by
    rw [size_of_int_eq (by omega) (by omega), int_of_eq (by omega) (by omega)]
    omega
  have hzero : (0 : Int) ≤ 0 ∧ (0 : Int) ≤ n := ⟨le_rfl, Int.natCast_nonneg n⟩
  refine ⟨⟨buf.drop (2 * 4), 0, 0, n + 1⟩, ?_, rfl, ?_, hzero, hzero, Nat.zero_le n, ?_,
    ring_zero _ _⟩
  · rw [new, zone_new hn, bind_some, int_of_eq (by omega) (by omega), if_pos (by omega), hsize]
  · rw [length_drop]
    omega
  · exact (Int.zero_emod _).symm

theorem Holds.runs (h : Holds n queue s) (hn : n ≤ 2 ^ 31 - 2) (ops : List Op) :
    (beside n).Runs (fun _ _ p answers => answers.1 = answers.2 ∧ Agrees n p.1 p.2 ∧
      p.1.circle.length = n + 1) (s, queue) ops := by
  have hstep : ∀ (p : WvMagicCircle × Str) (op : Op), Holds n p.2 p.1 →
      ∃ p' answers, (beside n).step p op = some (p', answers) ∧
        (answers.1 = answers.2 ∧ Agrees n p'.1 p'.2 ∧ p'.1.circle.length = n + 1) ∧
        Holds n p'.2 p'.1 := by
    intro p op hp
    obtain ⟨s', hs', hholds⟩ := hp.step hn op
    refine ⟨(s', (reference n p.2 op).1), ((reference n p.2 op).2, (reference n p.2 op).2), ?_,
      ⟨rfl, hholds.agrees hn, hholds.length⟩, hholds⟩
    simp only [beside, hs', Option.map_some]
  exact Machine.runs_of_forall hstep h ops

/-- A circle for `n` bytes comes into being, and is a queue of bytes: in every run each call answers
as the queue does, no assertion fails, and no copy goes beyond the array. -/
def IsQueue (n : Nat) (buf : Str) : Prop :=
  ∃ s, new n buf = some s ∧ Agrees n s [] ∧ ∀ ops,
    (beside n).Runs (fun _ _ p answers => answers.1 = answers.2 ∧ Agrees n p.1 p.2 ∧
      p.1.circle.length = n + 1) (s, []) ops

/-- Of the capacities that an `int` can tell, the last eight fail in the constructor. -/
theorem isQueue_iff (hpos : 0 < n) (hn : n ≤ 2 ^ 31 - 2) {buf : Str} (hbuf : buf.length = n + 9) :
    IsQueue n buf ↔ n ≤ 2 ^ 31 - 10 := by
  constructor
  · rintro ⟨s, hnew, -⟩
    by_contra hlt
    exact some_ne_none s (hnew.symm.trans (new_none (by omega) hn))
  · intro hle
    obtain ⟨s, hnew, hs⟩ := holds_new hpos hle hbuf
    exact ⟨s, hnew, hs.agrees hn, hs.runs hn⟩

/-- A circle for three bytes, with a zone of twelve. -/
theorem isQueue_three : IsQueue 3 (replicate 12 0) :=
  (isQueue_iff (by decide) (by decide) (length_replicate ..)).mpr (by decide)

/-- The zone for `2 ^ 31 - 9` bytes fails its assertion. -/
theorem not_isQueue : ¬ ∀ n, 0 < n → n ≤ 2 ^ 31 - 2 → ∀ buf : Str, buf.length = n + 9 →
    IsQueue n buf := by
  intro h
  obtain ⟨s, hnew, -⟩ := h (2 ^ 31 - 9) (by decide) (by decide) (replicate (2 ^ 31 - 9 + 9) 0)
    length_replicate
  exact some_ne_none s (hnew.symm.trans (new_none (by decide) (by decide)))

end WvMagicCircle

end WvStreams
