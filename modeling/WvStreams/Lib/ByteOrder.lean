import Mathlib.Data.Nat.Digits.Defs
import Mathlib.Tactic.NormNum

/-!
# The order of bytes

A number in memory begins with its lowest byte or with its highest one. A number whose bytes were
turned around on a little-endian host (`network`) has the same bytes in memory on every host
(`image_network`), and such bytes give the number back (`network_number`).
-/

namespace WvStreams.Lib.ByteOrder

open List

def value (l : List UInt8) : Nat := Nat.ofDigits 256 (l.map UInt8.toNat)

/-- The bytes of a number, which is taken modulo `256 ^ size`. -/
def ofNat : Nat → Nat → List UInt8
  | 0, _ => []
  | size + 1, n => UInt8.ofNat n :: ofNat size (n / 256)

@[simp] theorem length_ofNat (size n : Nat) : (ofNat size n).length = size := by
  induction size generalizing n with
  | zero => rfl
  | succ size ih => rw [ofNat, length_cons, ih]

theorem value_cons (b : UInt8) (l : List UInt8) : value (b :: l) = b.toNat + 256 * value l := by
  rw [value, map_cons, Nat.ofDigits_cons]
  rfl

theorem ofNat_value (l : List UInt8) : ofNat l.length (value l) = l := by
  induction l with
  | nil => rfl
  | cons b l ih =>
    have hlow : UInt8.ofNat (b.toNat + 256 * value l) = b := by
      apply UInt8.toNat_inj.mp
      rw [UInt8.toNat_ofNat']
      have hb := b.toNat_lt
      omega
    have hhigh : (b.toNat + 256 * value l) / 256 = value l := by
      have hb := b.toNat_lt
      omega
    rw [value_cons, length_cons, ofNat, hlow, hhigh, ih]

theorem value_ofNat (size n : Nat) : value (ofNat size n) = n % 256 ^ size := by
  induction size generalizing n with
  | zero => rw [Nat.pow_zero, Nat.mod_one]; rfl
  | succ size ih =>
    have hlow : (UInt8.ofNat n).toNat = n % 256 := UInt8.toNat_ofNat'
    rw [ofNat, value_cons, ih, hlow, Nat.pow_succ', Nat.mod_mul]

theorem ofNat_mod (size n : Nat) : ofNat size (n % 256 ^ size) = ofNat size n := by
  have h := ofNat_value (ofNat size n)
  rwa [length_ofNat, value_ofNat] at h

theorem ofNat_congr {size m n : Nat} (h : m % 256 ^ size = n % 256 ^ size) :
    ofNat size m = ofNat size n := by
  rw [← ofNat_mod size m, h, ofNat_mod]

theorem ofNat_add (a b n : Nat) : ofNat (a + b) n = ofNat a n ++ ofNat b (n / 256 ^ a) := by
  induction a generalizing n with
  | zero => rw [Nat.zero_add, Nat.pow_zero, Nat.div_one]; rfl
  | succ a ih =>
    rw [Nat.add_right_comm, ofNat, ih, ofNat, cons_append, Nat.div_div_eq_div_mul, Nat.pow_succ']

theorem value_append (a b : List UInt8) : value (a ++ b) = value a + 256 ^ a.length * value b := by
  rw [value, map_append, Nat.ofDigits_append, length_map]
  rfl

theorem value_lt (l : List UInt8) : value l < 256 ^ l.length := by
  have h := value_ofNat l.length (value l)
  rw [ofNat_value] at h
  rw [h]
  exact Nat.mod_lt _ (Nat.pow_pos (by decide))

/-- The order in which a host has the bytes of a number. -/
inductive Endian where
  | little
  | big

def swap (size n : Nat) : Nat := value (ofNat size n).reverse

theorem ofNat_swap (size n : Nat) : ofNat size (swap size n) = (ofNat size n).reverse := by
  have h := ofNat_value (ofNat size n).reverse
  rwa [length_reverse, length_ofNat] at h

theorem swap_lt (size n : Nat) : swap size n < 256 ^ size := by
  have h := value_lt (ofNat size n).reverse
  rwa [length_reverse, length_ofNat] at h

namespace Endian

def image (e : Endian) (size n : Nat) : List UInt8 :=
  match e with
  | little => ofNat size n
  | big => (ofNat size n).reverse

def number (e : Endian) (l : List UInt8) : Nat :=
  match e with
  | little => value l
  | big => value l.reverse

/-- What `hton` does, and `ntoh` too. -/
def network (e : Endian) (size n : Nat) : Nat :=
  match e with
  | little => swap size n
  | big => n

@[simp] theorem length_image (e : Endian) (size n : Nat) : (e.image size n).length = size := by
  cases e <;> simp [image]

theorem image_congr (e : Endian) {size m n : Nat} (h : m % 256 ^ size = n % 256 ^ size) :
    e.image size m = e.image size n := by
  cases e with
  | little => exact ofNat_congr h
  | big => exact congrArg reverse (ofNat_congr h)

theorem number_image (e : Endian) (size n : Nat) : e.number (e.image size n) = n % 256 ^ size := by
  cases e with
  | little => exact value_ofNat size n
  | big =>
    rw [number, image, reverse_reverse]
    exact value_ofNat size n

theorem number_lt (e : Endian) (l : List UInt8) : e.number l < 256 ^ l.length := by
  cases e with
  | little => exact value_lt l
  | big => exact (congrArg (256 ^ ·) l.length_reverse) ▸ value_lt l.reverse

theorem image_network (e : Endian) (size n : Nat) :
    e.image size (e.network size n) = big.image size n := by
  cases e with
  | little => exact ofNat_swap size n
  | big => rfl

theorem network_number (e : Endian) {size : Nat} {l : List UInt8} (h : l.length = size) :
    e.network size (e.number l) = big.number l := by
  subst h
  cases e with
  | little =>
    rw [network, number, swap, ofNat_value]
    rfl
  | big => rfl

theorem network_halves (size n : Nat) : little.network (size + size) n =
    little.network size n * 256 ^ size + little.network size (n / 256 ^ size) := by
  rw [network, swap, ofNat_add, reverse_append, value_append, length_reverse,
    length_ofNat, Nat.mul_comm, Nat.add_comm]
  rfl

end Endian

end WvStreams.Lib.ByteOrder
