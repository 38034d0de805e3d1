import WvStreams.Buffers.CircularBuf

/-!
# `compact` in memory

The operations of `MemOps` fail where they leave the array, and the loop of `compact` is given some
fuel. With more fuel than there are elements to be kept it ends, no operation fails, and the array is
the one of `WvCircularBufStore.compact` (`compact_in_place`).
-/

namespace WvStreams

open Lib Lib.Ring List

namespace MemOps

def uninit_move (data : Str) (target source count : Nat) : Option Str :=
  if target + count ≤ data.length ∧ source + count ≤ data.length then
    some (move data target source count)
  else none

/-- `uninit_move` to an array of that size. -/
def move_out (data : Str) (source count : Nat) : Option Str :=
  if source + count ≤ data.length then some (slice data source count) else none

/-- `uninit_move` of a whole array back. -/
def move_in (data : Str) (target : Nat) (buf : Str) : Option Str :=
  if target + buf.length ≤ data.length then some (blit data target buf) else none

def swap (data : Str) (t1 t2 : Nat) : Nat → Option Str
  | 0 => some data
  | count + 1 => do
    let temp ← data[t1]?
    let other ← data[t2]?
    swap ((data.set t1 other).set t2 temp) (t1 + 1) (t2 + 1) count

variable {data : Str}

theorem uninit_move_eq {target source count : Nat} (ht : target + count ≤ data.length)
    (hs : source + count ≤ data.length) :
    uninit_move data target source count = some (move data target source count) :=
  if_pos ⟨ht, hs⟩

theorem move_out_eq {source count : Nat} (h : source + count ≤ data.length) :
    move_out data source count = some (slice data source count) := if_pos h

theorem move_in_eq {buf : Str} {target : Nat} (h : target + buf.length ≤ data.length) :
    move_in data target buf = some (blit data target buf) := if_pos h

theorem swap_set {i j n : Nat} (hi : i + (n + 1) ≤ j) (hj : j + (n + 1) ≤ data.length)
    {a b : Byte} (ha : data[i]? = some a) (hb : data[j]? = some b) :
    Ring.swap ((data.set i b).set j a) (i + 1) (j + 1) n = Ring.swap data i j (n + 1) := by
  have hlen : ((data.set i b).set j a).length = data.length := by
    rw [length_set, length_set]
  have hset : ∀ k, ((data.set i b).set j a)[k]? =
      if k = j then some a else if k = i then some b else data[k]? := by
    intro k
    rw [getElem?_set, getElem?_set, length_set]
    simp only [eq_comm (a := j), eq_comm (a := i), show j < data.length by omega,
      show i < data.length by omega, if_true]
  apply ext_getElem?
  intro k
  rw [getElem?_swap (by omega) (by omega), getElem?_swap hi hj]
  rcases Nat.lt_trichotomy k i with hk | rfl | hk
  · rw [if_neg (by omega), if_neg (by omega), if_neg (by omega), if_neg (by omega), hset,
      if_neg (by omega), if_neg (by omega)]
  · rw [if_neg (by omega), if_neg (by omega), if_pos (by omega), hset, if_neg (by omega),
      if_pos rfl, Nat.sub_self, Nat.add_zero, hb]
  · rcases Nat.lt_trichotomy k j with hk' | rfl | hk'
    · by_cases hin : k < i + (n + 1)
      · rw [if_pos (by omega), if_pos (by omega), hset, if_neg (by omega), if_neg (by omega)]
        congr 1
        omega
      · rw [if_neg (by omega), if_neg (by omega), if_neg (by omega), if_neg (by omega), hset,
          if_neg (by omega), if_neg (by omega)]
    · rw [if_neg (by omega), if_neg (by omega), if_neg (by omega), if_pos (by omega), hset,
        if_pos rfl, Nat.sub_self, Nat.add_zero, ha]
    · rw [if_neg (by omega)]
      by_cases hin : k < j + (n + 1)
      · rw [if_pos (by omega), if_neg (by omega), if_pos (by omega), hset, if_neg (by omega),
          if_neg (by omega)]
        congr 1
        omega
      · rw [if_neg (by omega), if_neg (by omega), if_neg (by omega), hset, if_neg (by omega),
          if_neg (by omega)]

theorem swap_eq {i j n : Nat} (hi : i + n ≤ j) (hj : j + n ≤ data.length) :
    swap data i j n = some (Ring.swap data i j n) := by
  induction n generalizing data i j with
  | zero => simp [swap, Ring.swap]
  | succ n ih =>
    have ha : data[i]? = some data[i] := getElem?_eq_getElem (by omega)
    have hb : data[j]? = some data[j] := getElem?_eq_getElem (by omega)
    have hlen : ((data.set i data[j]).set j data[i]).length = data.length := by
      rw [length_set, length_set]
    rw [swap, ha, hb]
    exact (ih (by omega) (by omega)).trans (congrArg some (swap_set hi hj ha hb))

end MemOps

namespace WvCircularBufStore

/-- The loop of `compact`, with so many turns at most. -/
def swapsIn (end_ headcount : Nat) : Nat → Str → Nat → Nat → Option (Str × Nat × Nat)
  | 0, _, _, _ => none
  | fuel + 1, data, start, tailcount =>
    if headcount ≤ tailcount then do
      let data ← MemOps.swap data start end_ headcount
      swapsIn end_ headcount fuel data (start + headcount) (tailcount - headcount)
    else some (data, start, tailcount)

/-- `compact`, where nothing but the array and a new one may be accessed. -/
def compactIn (fuel : Nat) (data : Str) (size head count : Nat) : Option Str :=
  if count = 0 then some data
  else if head + count ≤ size then MemOps.uninit_move data 0 head count
  else
    let headcount := size - head
    let tailcount := count - headcount
    let freecount := size - count
    if freecount ≥ headcount then do
      let data ← MemOps.uninit_move data headcount 0 tailcount
      MemOps.uninit_move data 0 head headcount
    else do
      let (data, start, tailcount) ← swapsIn head headcount fuel data 0 tailcount
      let buf ← MemOps.move_out data start tailcount
      let data ← MemOps.uninit_move data start head headcount
      MemOps.move_in data (start + headcount) buf

theorem swapsIn_eq {end_ headcount : Nat} (hpos : 0 < headcount) {fuel : Nat} {data : Str}
    {start tailcount : Nat} (h : start + tailcount ≤ end_) (hend : end_ + headcount ≤ data.length)
    (hfuel : tailcount < fuel) :
    swapsIn end_ headcount fuel data start tailcount =
      some (swapLoop data start end_ headcount tailcount) := by
  induction fuel generalizing data start tailcount with
  | zero => omega
  | succ fuel ih =>
    rw [swapsIn, swapLoop]
    by_cases hmore : headcount ≤ tailcount
    · have hlen : (Ring.swap data start end_ headcount).length = data.length :=
        length_swap (by omega) hend
      rw [if_pos hmore, if_pos ⟨hmore, hpos⟩, MemOps.swap_eq (by omega) hend]
      exact ih (by omega) (by omega) (by omega)
    · rw [if_neg hmore, if_neg fun h => hmore h.1]

theorem compactIn_eq {data : Str} {head count fuel : Nat} (hhead : head ≤ data.length)
    (hcount : count ≤ data.length) (hfuel : count < fuel) :
    compactIn fuel data data.length head count = some (compact data data.length head count) := by
  rw [compactIn, compact]
  by_cases hzero : count = 0
  · rw [if_pos hzero, if_pos hzero]
  rw [if_neg hzero, if_neg hzero]
  by_cases hcontiguous : head + count ≤ data.length
  · rw [if_pos hcontiguous, if_pos hcontiguous]
    exact MemOps.uninit_move_eq (by omega) (by omega)
  rw [if_neg hcontiguous, if_neg hcontiguous]
  by_cases hroom : data.length - count ≥ data.length - head
  · have hmoved : (move data (data.length - head) 0 (count - (data.length - head))).length =
        data.length := length_move (by omega) (by omega)
    rw [if_pos hroom, if_pos hroom, MemOps.uninit_move_eq (by omega) (by omega)]
    exact MemOps.uninit_move_eq (by omega) (by omega)
  · have hpos : 0 < data.length - head := by omega
    have hstart : 0 + (count - (data.length - head)) ≤ head := by omega
    have hend : head + (data.length - head) ≤ data.length := by omega
    obtain ⟨hlength, hlt, hsum, -⟩ := swapLoop_region hpos hstart hend
    rw [if_neg hroom, if_neg hroom, swapsIn_eq hpos hstart hend (by omega)]
    generalize swapLoop data 0 head (data.length - head) (count - (data.length - head)) = r
      at hlength hlt hsum ⊢
    obtain ⟨array, start, rest⟩ := r
    dsimp only at hlength hlt hsum ⊢
    have hbuf : (slice array start rest).length = rest := length_slice (by omega)
    have hmoved : (move array start head (data.length - head)).length = array.length :=
      length_move (by omega) (by omega)
    rw [Option.bind_eq_bind, Option.bind_some]
    dsimp only
    rw [MemOps.move_out_eq (by omega), MemOps.uninit_move_eq (by omega) (by omega)]
    exact MemOps.move_in_eq (by omega)

theorem getElem?_ring {data : Str} {head count i : Nat} (hcount : count ≤ data.length)
    (hi : i < count) : (ring data head count)[i]? = data[(head + i) % data.length]? := by
  rw [ring, getElem?_take, if_pos hi, getElem?_rotate (by omega), Nat.add_comm]

/-- With the fuel for all elements `compact` ends without an access outside the array, and moves the
elements that are kept to its beginning in circular order. -/
theorem compact_in_place (data : Str) {head count : Nat} (hhead : head ≤ data.length)
    (hcount : count ≤ data.length) :
    ∃ array, (∀ fuel, count < fuel → compactIn fuel data data.length head count = some array) ∧
      array.length = data.length ∧ ∀ i < count, array[i]? = data[(head + i) % data.length]? := by
  obtain ⟨hlength, hslice⟩ := compact_window hhead hcount
  refine ⟨compact data data.length head count, fun fuel hfuel => compactIn_eq hhead hcount hfuel,
    hlength, fun i hi => ?_⟩
  have helement := getElem?_slice (compact data data.length head count) 0 count i
  rw [if_pos hi, Nat.zero_add, hslice] at helement
  rw [← helement]
  exact getElem?_ring hcount hi

/-- The head is swapped over the tail twice, and one element is left over. -/
theorem compact_in_place_wrapped :
    ∃ array, (∀ fuel, 7 < fuel → compactIn fuel [3, 4, 5, 6, 7, 0, 1, 2] 8 6 7 = some array) ∧
      array.length = 8 ∧ ∀ i < 7, array[i]? = [3, 4, 5, 6, 7, 0, 1, 2][(6 + i) % 8]? :=
  compact_in_place [3, 4, 5, 6, 7, 0, 1, 2] (by decide) (by decide)

end WvCircularBufStore

end WvStreams
