import Mathlib.Data.List.Rotate
import Mathlib.Data.Nat.ModEq

/-!
# Rings

An array is a list. `slice` is a part of it, `blit` writes a part, and `ring` reads it as a
ring, on from its beginning behind its end. What is written in the middle of a window is seen
there, and changes nothing else in the window (`ring_blit`).
-/

namespace WvStreams.Lib.Ring

open List

variable {α : Type}

def slice (data : List α) (i n : Nat) : List α := (data.drop i).take n

def blit (data : List α) (i : Nat) (xs : List α) : List α :=
  data.take i ++ xs ++ data.drop (i + xs.length)

/-- Copies `n` elements; the regions may overlap. -/
def move (data : List α) (target source n : Nat) : List α := blit data target (slice data source n)

/-- Swaps two regions of `n` elements that do not overlap. -/
def swap (data : List α) (i j n : Nat) : List α :=
  blit (blit data i (slice data j n)) j (slice data i n)

/-- The `n` elements from `start` on, in the ring. -/
def ring (data : List α) (start n : Nat) : List α := (data.rotate start).take n

variable {data xs : List α} {n i j start m source target : Nat}

theorem length_slice (h : i + n ≤ data.length) : (slice data i n).length = n := by
  rw [slice, length_take, length_drop]
  omega

@[simp] theorem slice_zero (data : List α) (i : Nat) : slice data i 0 = [] := take_zero

theorem slice_add (data : List α) (i m n : Nat) :
    slice data i (m + n) = slice data i m ++ slice data (i + m) n := by
  rw [slice, slice, slice, take_add, drop_drop]

theorem length_blit (h : i + xs.length ≤ data.length) : (blit data i xs).length = data.length := by
  rw [blit, length_append, length_append, length_take, length_drop]
  omega

theorem length_le_blit (data : List α) (i : Nat) (xs : List α) :
    data.length ≤ (blit data i xs).length := by
  rw [blit, length_append, length_append, length_take, length_drop]
  omega

@[simp] theorem blit_nil (data : List α) (i : Nat) : blit data i [] = data := by
  simp [blit]

theorem blit_append {data xs ys : List α} {i : Nat} (h : i + xs.length ≤ data.length) :
    blit (blit data i xs) (i + xs.length) ys = blit data i (xs ++ ys) := by
  have hlen : (data.take i ++ xs).length = i + xs.length := by
    rw [length_append, length_take]
    omega
  have hfront : (blit data i xs).take (i + xs.length) = data.take i ++ xs := by
    rw [blit, take_left' hlen]
  have hback : (blit data i xs).drop (i + xs.length + ys.length) =
      data.drop (i + xs.length + ys.length) := by
    rw [blit, ← hlen, drop_length_add_append, drop_drop, hlen]
  rw [blit, hfront, hback, blit, length_append, append_assoc (data.take i) xs ys, Nat.add_assoc]

theorem slice_within (front back : List α) {part : List α} (h : i + n ≤ part.length) :
    slice (front ++ part ++ back) (front.length + i) n = slice part i n := by
  rw [slice, append_assoc, drop_length_add_append,
    drop_append_of_le_length (by omega), take_append_of_le_length (by rw [length_drop]; omega)]
  rfl

theorem blit_within (front back : List α) {part : List α} (h : i + xs.length ≤ part.length) :
    blit (front ++ part ++ back) (front.length + i) xs = front ++ blit part i xs ++ back := by
  rw [blit, append_assoc front, Nat.add_assoc, take_length_add_append, drop_length_add_append,
    take_append_of_le_length (by omega), drop_append_of_le_length h]
  simp only [blit, append_assoc]

theorem slice_blit (h : i + xs.length ≤ data.length) : slice (blit data i xs) i xs.length = xs := by
  have hi : (data.take i).length = i := by
    rw [length_take]
    omega
  rw [slice, blit, append_assoc, drop_left' hi, take_left]

theorem slice_blit_before (h : i ≤ data.length) (hn : j + n ≤ i) :
    slice (blit data i xs) j n = slice data j n := by
  have hi : (data.take i).length = i := by
    rw [length_take]
    omega
  rw [slice, slice, blit, append_assoc, drop_append_of_le_length (by omega),
    take_append_of_le_length (by rw [length_drop]; omega), drop_take, take_take,
    Nat.min_eq_left (by omega)]

theorem slice_blit_after (h : i + xs.length ≤ data.length) (hj : i + xs.length ≤ j) :
    slice (blit data i xs) j n = slice data j n := by
  have hi : (data.take i ++ xs).length = i + xs.length := by
    rw [length_append, length_take]
    omega
  obtain ⟨k, rfl⟩ := Nat.exists_eq_add_of_le hj
  rw [slice, slice, blit, ← hi, drop_length_add_append, drop_drop, hi]

theorem getElem?_slice (data : List α) (i n k : Nat) :
    (slice data i n)[k]? = if k < n then data[i + k]? else none := by
  rw [slice, getElem?_take, getElem?_drop]

theorem getElem?_blit (h : i + xs.length ≤ data.length) (k : Nat) :
    (blit data i xs)[k]? = if i ≤ k ∧ k < i + xs.length then xs[k - i]? else data[k]? := by
  have hi : (data.take i).length = i := by
    rw [length_take]
    omega
  rw [blit, append_assoc]
  by_cases hlow : k < i
  · rw [getElem?_append_left (by omega), getElem?_take, if_pos hlow, if_neg (by omega)]
  · rw [getElem?_append_right (by omega), hi]
    by_cases hin : k < i + xs.length
    · rw [getElem?_append_left (by omega), if_pos ⟨by omega, hin⟩]
    · rw [getElem?_append_right (by omega), getElem?_drop, if_neg (by omega)]
      congr 1
      omega

theorem length_move (hs : source + n ≤ data.length) (ht : target + n ≤ data.length) :
    (move data target source n).length = data.length := by
  have hlen : (slice data source n).length = n := length_slice hs
  rw [move, length_blit (by omega)]

theorem slice_move (hs : source + n ≤ data.length) (ht : target + n ≤ data.length) :
    slice (move data target source n) target n = slice data source n := by
  have hlen : (slice data source n).length = n := length_slice hs
  have hself : slice (blit data target (slice data source n)) target (slice data source n).length =
      slice data source n := slice_blit (by omega)
  rwa [hlen] at hself

theorem slice_move_before (ht : target ≤ data.length) (hj : j + m ≤ target) :
    slice (move data target source n) j m = slice data j m :=
  slice_blit_before ht hj

theorem slice_move_after (hs : source + n ≤ data.length) (ht : target + n ≤ data.length)
    (hj : target + n ≤ j) : slice (move data target source n) j m = slice data j m := by
  have hlen : (slice data source n).length = n := length_slice hs
  exact slice_blit_after (by omega) (by omega)

theorem length_swap (hi : i + n ≤ data.length) (hj : j + n ≤ data.length) :
    (swap data i j n).length = data.length := by
  have hfirst : (slice data j n).length = n := length_slice hj
  have hsecond : (slice data i n).length = n := length_slice hi
  have hlen : (blit data i (slice data j n)).length = data.length := length_blit (by omega)
  rw [swap, length_blit (by omega), hlen]

theorem getElem?_swap (hi : i + n ≤ j) (hj : j + n ≤ data.length) (k : Nat) :
    (swap data i j n)[k]? =
      if i ≤ k ∧ k < i + n then data[j + (k - i)]?
      else if j ≤ k ∧ k < j + n then data[i + (k - j)]? else data[k]? := by
  have hfirst : (slice data j n).length = n := length_slice hj
  have hsecond : (slice data i n).length = n := length_slice (by omega)
  have hlen : (blit data i (slice data j n)).length = data.length := length_blit (by omega)
  rw [swap, getElem?_blit (by omega), getElem?_blit (by omega), hfirst, hsecond, getElem?_slice,
    getElem?_slice]
  by_cases hin : i ≤ k ∧ k < i + n
  · rw [if_neg (by omega), if_pos hin, if_pos hin, if_pos (by omega)]
  · rw [if_neg hin, if_neg hin]
    by_cases hin' : j ≤ k ∧ k < j + n
    · rw [if_pos hin', if_pos hin', if_pos (by omega)]
    · rw [if_neg hin', if_neg hin']

/-- What one swap does to the region: `n` more bytes at its beginning are in their place. -/
theorem slice_swap {end_ rest : Nat} (h : start + n + rest ≤ end_) (hend : end_ + n ≤ data.length) :
    slice (swap data start end_ n) 0 (start + n) = slice data 0 start ++ slice data end_ n ∧
      slice (swap data start end_ n) end_ n = slice data start n ∧
      slice (swap data start end_ n) (start + n) rest = slice data (start + n) rest := by
  have hfirst : (slice data end_ n).length = n := length_slice hend
  have hsecond : (slice data start n).length = n := length_slice (by omega)
  have hlen : (blit data start (slice data end_ n)).length = data.length :=
    length_blit (by omega)
  have hself : slice (blit data start (slice data end_ n)) start (slice data end_ n).length =
      slice data end_ n := slice_blit (by omega)
  have hother : slice (blit (blit data start (slice data end_ n)) end_ (slice data start n)) end_
      (slice data start n).length = slice data start n := slice_blit (by omega)
  rw [hfirst] at hself
  rw [hsecond] at hother
  rw [swap]
  refine ⟨?_, hother, ?_⟩
  · rw [slice_blit_before (by omega) (by omega), slice_add, Nat.zero_add, hself,
      slice_blit_before (by omega) (by omega)]
  · rw [slice_blit_before (by omega) (by omega), slice_blit_after (by omega) (by omega)]

theorem length_ring (h : n ≤ data.length) : (ring data start n).length = n := by
  rw [ring, length_take, length_rotate]
  omega

@[simp] theorem ring_zero (data : List α) (start : Nat) : ring data start 0 = [] := take_zero

theorem ring_mod (data : List α) (start n : Nat) :
    ring data (start % data.length) n = ring data start n := by
  rw [ring, ring, rotate_mod]

theorem ring_congr (h : i % data.length = j % data.length) (n : Nat) :
    ring data i n = ring data j n := by
  rw [← ring_mod, h, ring_mod]

theorem ring_add (h : m + n ≤ data.length) :
    ring data start (m + n) = ring data start m ++ ring data (start + m) n := by
  have hlen : (data.rotate start).length = data.length := length_rotate _ _
  have hrotate : data.rotate (start + m) =
      (data.rotate start).drop m ++ (data.rotate start).take m := by
    rw [← rotate_rotate, rotate_eq_drop_append_take (by omega)]
  rw [ring, ring, ring, hrotate, take_add, take_append_of_le_length]
  rw [length_drop]
  omega

theorem ring_eq_slice (h : start + n ≤ data.length) : ring data start n = slice data start n := by
  rw [ring, slice, rotate_eq_drop_append_take (by omega), take_append_of_le_length]
  rw [length_drop]
  omega

theorem ring_wrap (hstart : start ≤ data.length) (hn : n ≤ data.length)
    (h : data.length ≤ start + n) :
    ring data start n =
      slice data start (data.length - start) ++ slice data 0 (start + n - data.length) := by
  have hsplit : data.length - start + (start + n - data.length) = n := by omega
  have hend : start + (data.length - start) = data.length := by omega
  have hzero : data.length % data.length = 0 % data.length := by rw [Nat.mod_self, Nat.zero_mod]
  rw [← hsplit, ring_add (by omega), hend, ring_congr hzero, ring_eq_slice (by omega),
    ring_eq_slice (by omega), hsplit]

theorem take_drop_ring {k : Nat} (hn : n ≤ data.length) (h : m + k ≤ n) :
    ((ring data start n).drop m).take k = ring data (start + m) k := by
  have hsplit : n = m + k + (n - (m + k)) := by omega
  have hm : (ring data start m).length = m := length_ring (by omega)
  have hk : (ring data (start + m) k).length = k := length_ring (by omega)
  rw [hsplit, ring_add (by omega), ring_add (by omega), append_assoc, drop_left' hm, take_left' hk]

theorem take_ring (hn : n ≤ data.length) (h : m ≤ n) :
    (ring data start n).take m = ring data start m := by
  have hsub : ((ring data start n).drop 0).take m = ring data (start + 0) m :=
    take_drop_ring hn (by omega)
  rwa [drop_zero, Nat.add_zero] at hsub

theorem drop_ring (hn : n ≤ data.length) (h : m ≤ n) :
    (ring data start n).drop m = ring data (start + m) (n - m) := by
  have hsub : ((ring data start n).drop m).take (n - m) = ring data (start + m) (n - m) :=
    take_drop_ring hn (by omega)
  rwa [take_of_length_le] at hsub
  rw [length_drop, length_ring hn]

theorem ring_blit_rest (h : i + xs.length ≤ data.length) :
    ring (blit data i xs) (i + xs.length) (data.length - xs.length) =
      ring data (i + xs.length) (data.length - xs.length) := by
  have hlen := length_blit h
  rw [ring_wrap (by omega) (by omega) (by omega), ring_wrap h (by omega) (by omega), hlen,
    slice_blit_after h (le_refl _), slice_blit_before (by omega) (by omega)]

theorem ring_blit_after (h : i + xs.length ≤ data.length)
    (hj : j % data.length = (i + xs.length) % data.length) (hn : n + xs.length ≤ data.length) :
    ring (blit data i xs) j n = ring data j n := by
  have hlen := length_blit h
  have hrest := ring_blit_rest h
  have hsplit : data.length - xs.length = n + (data.length - xs.length - n) := by omega
  rw [ring_congr hj, ring_congr (hlen.symm ▸ hj)]
  rw [hsplit, ring_add (by omega), ring_add (by omega)] at hrest
  refine (append_inj hrest ?_).1
  rw [length_ring (by omega), length_ring (by omega)]

theorem ring_blit_before (h : i + xs.length ≤ data.length)
    (hj : (j + n) % data.length = i % data.length) (hn : n + xs.length ≤ data.length) :
    ring (blit data i xs) j n = ring data j n := by
  have hlen := length_blit h
  have hrest := ring_blit_rest h
  have hsplit : data.length - xs.length = (data.length - xs.length - n) + n := by omega
  -- the window that ends where the written part begins
  have hstart : j % data.length =
      (i + xs.length + (data.length - xs.length - n)) % data.length := by
    have hsum : i + xs.length + (data.length - xs.length - n) + n = i + data.length := by omega
    apply Nat.ModEq.add_right_cancel' n
    show (j + n) % data.length = _ % data.length
    rw [hj, hsum, Nat.add_mod_right]
  have hstart' := hstart
  rw [← hlen] at hstart'
  rw [ring_congr hstart, ring_congr hstart', hlen]
  rw [hsplit, ring_add (by omega), ring_add (by omega)] at hrest
  refine (append_inj hrest ?_).2
  rw [length_ring (by omega), length_ring (by omega)]

theorem ring_blit {r : Nat} (h : i + xs.length ≤ data.length)
    (hi : (start + m) % data.length = i % data.length) (hlen : m + xs.length + r ≤ data.length) :
    ring (blit data i xs) start (m + xs.length + r) =
      ring data start m ++ xs ++ ring data (start + m + xs.length) r := by
  have hblit := length_blit h
  have hend : (start + (m + xs.length)) % data.length = (i + xs.length) % data.length := by
    rw [← Nat.add_assoc, Nat.add_mod, hi, ← Nat.add_mod]
  have hself : ring (blit data i xs) (start + m) xs.length = xs := by
    rw [ring_congr (hblit.symm ▸ hi), ring_eq_slice (hblit.symm ▸ h), slice_blit h]
  rw [ring_add (by omega), ring_add (by omega), ring_blit_before h hi (by omega), hself,
    ring_blit_after h hend (by omega), Nat.add_assoc start]

end WvStreams.Lib.Ring
