import WvStreams.Lib.ByteOrder

/-!
# Counter mode

The key stream of a block cipher in counter mode: the blocks for a counter and those that come after
it. A counter is the bytes of a number, and wraps. Data that is as long as
some blocks can be encrypted apart from what comes behind it (`xorStream_append`), and
encrypting twice gives the data back (`xorStream_twice`).
-/

namespace WvStreams.Lib.CounterMode

open List

open ByteOrder

variable (E : List UInt8 → List UInt8) (size : Nat)

/-- The key stream of some blocks: `E(n)`, `E(n + 1)`, and so on. -/
def keyStream (n : Nat) : Nat → List UInt8
  | 0 => []
  | count + 1 => E (ofNat size n) ++ keyStream (n + 1) count

def blocks (length : Nat) : Nat := (length + size - 1) / size

/-- The data, with the key stream for the counter `n` on. -/
def xorStream (n : Nat) (data : List UInt8) : List UInt8 :=
  List.zipWith (· ^^^ ·) data (keyStream E size n (blocks size data.length))

variable {E size}

theorem keyStream_add (n a b : Nat) :
    keyStream E size n (a + b) = keyStream E size n a ++ keyStream E size (n + a) b := by
  induction a generalizing n with
  | zero => rw [Nat.zero_add]; rfl
  | succ a ih =>
    rw [Nat.add_right_comm, keyStream, ih, keyStream, append_assoc, Nat.add_right_comm n,
      Nat.add_assoc n]

theorem keyStream_succ (n count : Nat) :
    keyStream E size n (count + 1) = keyStream E size n count ++ E (ofNat size (n + count)) := by
  rw [keyStream_add, keyStream, keyStream, append_nil]

theorem length_keyStream (hE : ∀ block, block.length = size → (E block).length = size)
    (n count : Nat) : (keyStream E size n count).length = count * size := by
  induction count generalizing n with
  | zero => rw [Nat.zero_mul]; rfl
  | succ count ih =>
    rw [keyStream, length_append, ih, hE _ (length_ofNat size n), Nat.succ_mul, Nat.add_comm]

theorem le_blocks (hsize : 0 < size) (length : Nat) : length ≤ blocks size length * size := by
  have hdiv := Nat.div_add_mod (length + size - 1) size
  have hmod := Nat.mod_lt (length + size - 1) hsize
  rw [blocks, Nat.mul_comm]
  omega

theorem blocks_add (hsize : 0 < size) (count length : Nat) :
    blocks size (count * size + length) = count + blocks size length := by
  have hsum : count * size + length + size - 1 = length + size - 1 + size * count := by
    rw [Nat.mul_comm size]
    omega
  rw [blocks, blocks, hsum, Nat.add_mul_div_left _ _ hsize, Nat.add_comm]

theorem blocks_mul (hsize : 0 < size) (count : Nat) : blocks size (count * size) = count := by
  have hadd := blocks_add hsize count 0
  rwa [blocks, blocks, Nat.div_eq_of_lt (show 0 + size - 1 < size by omega)] at hadd

theorem blocks_short {count length : Nat} (hpos : 0 < length) (hlt : length < size) :
    blocks size (count * size + length) = count + 1 := by
  have hsize : 0 < size := hpos.trans hlt
  rw [blocks_add hsize, blocks]
  congr 1
  exact Nat.div_eq_of_lt_le (by omega) (by omega)

theorem xorStream_take (n : Nat) (data : List UInt8) :
    zipWith (· ^^^ ·) data ((keyStream E size n (blocks size data.length)).take data.length) =
      xorStream E size n data := by
  have hlen : (xorStream E size n data).length ≤ data.length :=
    (length_zipWith ..).trans_le (Nat.min_le_left _ _)
  have htake := take_of_length_le hlen
  rwa [xorStream, take_zipWith, take_length] at htake

theorem length_xorStream (hE : ∀ block, block.length = size → (E block).length = size)
    (hsize : 0 < size) (n : Nat) (data : List UInt8) :
    (xorStream E size n data).length = data.length := by
  rw [xorStream, length_zipWith, length_keyStream hE]
  exact Nat.min_eq_left (le_blocks hsize data.length)

theorem xorStream_append (hE : ∀ block, block.length = size → (E block).length = size)
    (hsize : 0 < size) {count : Nat} (n : Nat) {front : List UInt8}
    (hfront : front.length = count * size) (back : List UInt8) :
    xorStream E size n (front ++ back) =
      xorStream E size n front ++ xorStream E size (n + count) back := by
  have hlen : front.length = (keyStream E size n count).length := by
    rw [length_keyStream hE, hfront]
  rw [xorStream, xorStream, xorStream, length_append, hfront, blocks_add hsize,
    blocks_mul hsize, keyStream_add, zipWith_append hlen]

theorem zipWith_xor_twice {data key : List UInt8} (h : data.length ≤ key.length) :
    zipWith (· ^^^ ·) (zipWith (· ^^^ ·) data key) key = data := by
  induction data generalizing key with
  | nil => rfl
  | cons b data ih =>
    cases key with
    | nil => cases h
    | cons c key =>
      rw [zipWith_cons_cons, zipWith_cons_cons, ih (Nat.le_of_succ_le_succ h),
        UInt8.xor_assoc, UInt8.xor_self, UInt8.xor_zero]

theorem xorStream_twice (hE : ∀ block, block.length = size → (E block).length = size)
    (hsize : 0 < size) (n : Nat) (data : List UInt8) :
    xorStream E size n (xorStream E size n data) = data := by
  have hle : data.length ≤ (keyStream E size n (blocks size data.length)).length := by
    rw [length_keyStream hE]
    exact le_blocks hsize data.length
  have hlen := length_xorStream hE hsize n data
  rw [xorStream, hlen]
  exact zipWith_xor_twice hle

end WvStreams.Lib.CounterMode
