import WvStreams.Lib.ByteOrder
import WvStreams.Lib.Codec
import WvStreams.Strings.WvString
import Mathlib.Algebra.Order.Ring.Int
import Mathlib.Data.Int.ModEq

/-!
# `wv_serialize` and `wv_deserialize`

The integers are written in the order of the network, through a signed word of their own size, but
for those of two bytes, of which the first two bytes of a word of four are written. A little-endian
host has the integer there and a big-endian one its sign. A string ends with its `NUL`, and what is
in front of a buffer or a list is a `size_t`. A `WvBuf` is the bytes that it has: values are put
behind them and taken from their front.
-/

namespace WvStreams

open Lib Lib.ByteOrder Lib.Codec Endian List

namespace WvSerialize

/-! ## Integers -/

inductive Sizeof where
  | one
  | two
  | four
  | eight

def Sizeof.bytes : Sizeof → Nat
  | .one => 1
  | .two => 2
  | .four => 4
  | .eight => 8

structure Scalar where
  size : Sizeof
  signed : Bool

def residue (size : Nat) (i : Int) : Nat := (i % (256 ^ size : Nat)).toNat

namespace Scalar

def Holds (t : Scalar) (i : Int) : Prop :=
  if t.signed then -((256 ^ t.size.bytes : Nat) : Int) ≤ i * 2 ∧ i * 2 < (256 ^ t.size.bytes : Nat)
  else 0 ≤ i ∧ i < (256 ^ t.size.bytes : Nat)

def wrap (t : Scalar) (i : Int) : Int :=
  if t.signed then i.bmod (256 ^ t.size.bytes) else i % (256 ^ t.size.bytes : Nat)

def load (t : Scalar) (e : Endian) (bytes : Str) : Int := t.wrap (e.number bytes)

end Scalar

abbrev int8 : Scalar := ⟨.one, true⟩

abbrev int16 : Scalar := ⟨.two, true⟩

abbrev int32 : Scalar := ⟨.four, true⟩

abbrev int64 : Scalar := ⟨.eight, true⟩

def memory (e : Endian) (size : Nat) (i : Int) : Str := e.image size (residue size i)

def htonl (e : Endian) (n : Nat) : Nat := e.network 4 n

def htons (e : Endian) (n : Nat) : Nat := e.network 2 n

def ntohl (e : Endian) (n : Nat) : Nat := e.network 4 n

def ntohs (e : Endian) (n : Nat) : Nat := e.network 2 n

def _wv_htonl (e : Endian) (i : Int) : Int := int32.wrap (htonl e (residue 4 i))

def _wv_htons (e : Endian) (i : Int) : Int := int16.wrap (htons e (residue 2 i))

def _wv_ntohl (e : Endian) (i : Int) : Int := int32.wrap (ntohl e (residue 4 i))

def _wv_ntohs (e : Endian) (i : Int) : Int := int16.wrap (ntohs e (residue 2 i))

def htonll (e : Endian) (n : Nat) : Nat :=
  match e with
  | .big => n
  | .little => (htonl e (n % 2 ^ 32) <<< 32) ||| htonl e (n >>> 32)

def ntohll (e : Endian) (n : Nat) : Nat :=
  match e with
  | .big => n
  | .little => (ntohl e (n % 2 ^ 32) <<< 32) ||| ntohl e (n >>> 32)

def wv_serialize_scalar (e : Endian) (t : Scalar) (i : Int) : Str :=
  match t.size with
  | .eight => memory e 8 (int64.wrap (htonll e (residue 8 i)))
  | .four => memory e 4 (_wv_htonl e (int32.wrap i))
  -- the first two bytes of an `int32_t`
  | .two => (memory e 4 (int32.wrap (_wv_htons e (int16.wrap i)))).take 2
  | .one => memory e 1 i

def wv_deserialize_scalar (e : Endian) (t : Scalar) (buf : Str) : Int × Str :=
  if buf.length < t.size.bytes then (0, buf)
  else
    match t.size with
    | .eight => (t.wrap (ntohll e (residue 8 (int64.load e (buf.take 8)))), buf.drop 8)
    | .four => (t.wrap (_wv_ntohl e (int32.load e (buf.take 4))), buf.drop 4)
    | .two => (t.wrap (_wv_ntohs e (int16.load e (buf.take 2))), buf.drop 2)
    | .one => (t.wrap (int8.load e (buf.take 1)), buf.drop 1)

/-! ## Values -/

inductive Ty where
  | scalar (t : Scalar)
  | string
  | buf
  | list (t : Ty)

@[reducible] def Ty.Val : Ty → Type
  | .scalar _ => Int
  | .string => WvString
  | .buf => Str
  | .list t => List t.Val

/-- `size_t` has four bytes, or eight. -/
def size_t (lp64 : Bool) : Scalar := ⟨if lp64 then .eight else .four, false⟩

/-- The values of a type that a host can have, with strings that are not null. -/
def Ty.Holds (lp64 : Bool) : (t : Ty) → t.Val → Prop
  | .scalar t, i => t.Holds i
  | .string, s => ∃ str, s = some str ∧ 0 ∉ str ∧ (size_t lp64).Holds (str.length + 1)
  | .buf, b => (size_t lp64).Holds b.length
  | .list t, l => (size_t lp64).Holds l.length ∧ ∀ x ∈ l, t.Holds lp64 x

def _wv_serialize (e : Endian) (lp64 : Bool) : (t : Ty) → t.Val → Str
  | .scalar t, i => wv_serialize_scalar e t i
  -- the terminating `NUL`
  | .string, s => s.getD [] ++ [0]
  | .buf, b => wv_serialize_scalar e (size_t lp64) b.length ++ b
  | .list t, l =>
    wv_serialize_scalar e (size_t lp64) l.length ++ l.flatMap (_wv_serialize e lp64 t)

namespace WvBuf

/-- The number of bytes up to the first `ch`, or 0. -/
def strchr (buf : Str) (ch : Byte) : Nat :=
  match buf.findIdx? (· == ch) with
  | some i => i + 1
  | none => 0

/-- A string that begins where the pointer is. It is not read behind the bytes that were got. -/
def cstr (bytes : Str) : Option Str :=
  if 0 ∈ bytes then some (bytes.takeWhile (· != 0)) else none

end WvBuf

def deserializeString (buf : Str) : Option (WvString × Str) :=
  -- an `unsigned int`
  let len := WvBuf.strchr buf 0 % 2 ^ 32
  if buf.length < len then some (none, buf)
  else (WvBuf.cstr (buf.take len)).map fun s => (some s, buf.drop len)

/-- `WvDeserialize<WvBuf *>::go`; none if `merge` stops. -/
def deserializeBuf (e : Endian) (lp64 : Bool) (buf : Str) : Option (Str × Str) :=
  let (len, buf) := wv_deserialize_scalar e (size_t lp64) buf
  if len.toNat ≤ buf.length then some (buf.take len.toNat, buf.drop len.toNat) else none

def elements {α : Type} (go : Str → Option (α × Str)) : Nat → Str → Option (List α × Str)
  | 0, buf => some ([], buf)
  | count + 1, buf =>
    (go buf).bind fun (x, buf) => (elements go count buf).map fun (l, buf) => (x :: l, buf)

/-- `WvDeserialize<T>::go`; none if the program stops or reads behind the content. -/
def wv_deserialize (e : Endian) (lp64 : Bool) : (t : Ty) → Str → Option (t.Val × Str)
  | .scalar t, buf => some (wv_deserialize_scalar e t buf)
  | .string, buf => deserializeString buf
  | .buf, buf => deserializeBuf e lp64 buf
  | .list t, buf =>
    let (nelems, buf) := wv_deserialize_scalar e (size_t lp64) buf
    elements (wv_deserialize e lp64 t) nelems.toNat buf

/-! ## One integer -/

theorem residue_cast (size : Nat) (i : Int) : (residue size i : Int) = i % (256 ^ size : Nat) :=
  Int.toNat_of_nonneg (Int.emod_nonneg _ (by positivity))

variable {i : Int}

theorem residue_congr {size : Nat} {j : Int} (h : i % (256 ^ size : Nat) = j % (256 ^ size : Nat)) :
    residue size i = residue size j :=
  congrArg Int.toNat h

theorem residue_natCast (size n : Nat) : residue size n = n % 256 ^ size := by
  rw [residue, ← Int.natCast_mod, Int.toNat_natCast]

theorem residue_lt (size : Nat) (i : Int) : residue size i < 256 ^ size := by
  have hlt : (residue size i : Int) < (256 ^ size : Nat) := by
    rw [residue_cast]
    exact Int.emod_lt_of_pos _ (by positivity)
  exact Int.ofNat_lt.mp hlt

namespace Scalar

variable (t : Scalar)

theorem wrap_emod (i : Int) :
    t.wrap i % (256 ^ t.size.bytes : Nat) = i % (256 ^ t.size.bytes : Nat) := by
  rw [wrap]
  split
  · exact Int.bmod_emod
  · exact Int.emod_emod_of_dvd _ (Int.dvd_refl _)

theorem wrap_congr {i j : Int}
    (h : i % (256 ^ t.size.bytes : Nat) = j % (256 ^ t.size.bytes : Nat)) :
    t.wrap i = t.wrap j := by
  rw [wrap, wrap, h, ← Int.emod_bmod, h, Int.emod_bmod]

theorem wrap_residue (i : Int) : t.wrap (residue t.size.bytes i) = t.wrap i := by
  apply wrap_congr
  rw [residue_cast]
  exact Int.emod_emod_of_dvd _ (Int.dvd_refl _)

theorem wrap_eq {t : Scalar} {i : Int} (h : t.Holds i) : t.wrap i = i := by
  rw [Holds] at h
  rw [wrap]
  by_cases hsigned : t.signed
  · rw [if_pos hsigned] at h ⊢
    exact Int.bmod_eq_of_le_mul_two h.1 h.2
  · rw [if_neg hsigned] at h ⊢
    exact Int.emod_eq_of_lt h.1 h.2

theorem wrap_wrap {t u : Scalar} (h : t.size = u.size) (i : Int) :
    t.wrap (u.wrap i) = t.wrap i := by
  apply wrap_congr
  rw [h]
  exact u.wrap_emod i

theorem residue_wrap (i : Int) : residue t.size.bytes (t.wrap i) = residue t.size.bytes i :=
  residue_congr (t.wrap_emod i)

end Scalar

def network (size : Nat) (i : Int) : Str := Endian.big.image size (residue size i)

@[simp] theorem length_network (size : Nat) (i : Int) : (network size i).length = size :=
  length_image _ _ _

variable (e : Endian)

theorem memory_wrap (t : Scalar) (i : Int) :
    memory e t.size.bytes (t.wrap i) = memory e t.size.bytes i := by
  rw [memory, t.residue_wrap, memory]

theorem memory_natCast (size n : Nat) : memory e size n = e.image size n := by
  apply e.image_congr
  rw [residue_natCast, Nat.mod_mod]

theorem htonll_eq (n : Nat) : htonll e n = e.network 8 n := by
  cases e with
  | big => rfl
  | little =>
    have hlow : htonl .little (n % 2 ^ 32) = htonl .little n :=
      congrArg (fun l => value (reverse l)) (ofNat_mod 4 n)
    have hhigh : htonl .little (n >>> 32) < 2 ^ 32 := swap_lt 4 _
    rw [htonll, ← Nat.shiftLeft_add_eq_or_of_lt hhigh, hlow, Nat.shiftLeft_eq,
      Nat.shiftRight_eq_div_pow]
    exact (network_halves 4 n).symm

theorem ntohll_eq (n : Nat) : ntohll e n = e.network 8 n := htonll_eq e n

theorem residue_two (i : Int) : residue 4 i % 256 ^ 2 = residue 2 i := by
  have hcast : ((residue 4 i % 256 ^ 2 : Nat) : Int) = residue 2 i := by
    rw [Int.natCast_mod, residue_cast, residue_cast]
    exact Int.emod_emod_of_dvd _ (by decide)
  exact Int.ofNat.inj hcast

theorem residue_sign (h : int16.Holds i) : residue 4 i / 256 ^ 2 = if i < 0 then 65535 else 0 := by
  have hcast := residue_cast 4 i
  obtain ⟨hlow, hhigh⟩ : -65536 ≤ i * 2 ∧ i * 2 < 65536 := h
  split <;> omega

namespace Scalar

theorem wrap_holds (t : Scalar) (i : Int) : t.Holds (t.wrap i) := by
  have hpos : 0 < 256 ^ t.size.bytes := by positivity
  rw [Holds, wrap]
  by_cases hsigned : t.signed
  · rw [if_pos hsigned, if_pos hsigned]
    have hlow := @Int.le_bmod i _ hpos
    have hhigh := @Int.bmod_lt i _ hpos
    omega
  · rw [if_neg hsigned, if_neg hsigned]
    exact ⟨Int.emod_nonneg _ (by omega), Int.emod_lt_of_pos _ (by omega)⟩

end Scalar

theorem memory_network (t : Scalar) (i : Int) :
    memory e t.size.bytes (t.wrap (e.network t.size.bytes (residue t.size.bytes i) : Nat)) =
      network t.size.bytes i := by
  rw [memory_wrap, memory_natCast, image_network, network]

theorem memory_two (i : Int) : (memory .little 4 i).take 2 = memory .little 2 i := by
  show (ofNat (2 + 2) (residue 4 i)).take 2 = ofNat 2 (residue 2 i)
  rw [ofNat_add, take_left' (length_ofNat 2 _), ← residue_two]
  exact (ofNat_mod 2 _).symm

theorem memory_two_big (i : Int) :
    (memory .big 4 i).take 2 = big.image 2 (residue 4 i / 256 ^ 2) := by
  show (ofNat (2 + 2) (residue 4 i)).reverse.take 2 = _
  rw [ofNat_add, reverse_append]
  exact take_left' (by simp)

variable {t : Scalar}

theorem serialize_network {e : Endian} (h : t.size = .two → e = .little) (i : Int) :
    wv_serialize_scalar e t i = network t.size.bytes i := by
  rw [wv_serialize_scalar]
  cases hsize : t.size with
  | one =>
    show e.image 1 (residue 1 i) = big.image 1 (residue 1 i)
    cases e <;> rfl
  | two =>
    obtain rfl := h hsize
    have hhalf (j : Int) : residue 2 (int32.wrap j) = residue 2 j := by
      rw [← residue_two, ← residue_two]
      exact congrArg (· % 256 ^ 2) (int32.residue_wrap j)
    have hword (j : Int) : memory .little 2 (int32.wrap j) = memory .little 2 j :=
      congrArg (ofNat 2) (hhalf j)
    rw [memory_two, hword, _wv_htons, show residue 2 (int16.wrap i) = residue 2 i from
      int16.residue_wrap i]
    exact memory_network .little int16 i
  | four =>
    have hword := int32.residue_wrap i
    rw [_wv_htonl, show residue 4 (int32.wrap i) = residue 4 i from hword]
    exact memory_network e int32 i
  | eight =>
    rw [htonll_eq]
    exact memory_network e int64 i

theorem serialize_sign (h : t.size = .two) (i : Int) : wv_serialize_scalar .big t i =
    big.image 2 (if int16.wrap i < 0 then 65535 else 0) := by
  have hholds : int16.Holds (int16.wrap i) := int16.wrap_holds i
  have hsame : _wv_htons .big (int16.wrap i) = int16.wrap i :=
    (int16.wrap_residue _).trans (Scalar.wrap_eq hholds)
  have hword : int32.wrap (int16.wrap i) = int16.wrap i := by
    apply Scalar.wrap_eq
    obtain ⟨hlow, hhigh⟩ : -65536 ≤ int16.wrap i * 2 ∧ int16.wrap i * 2 < 65536 := hholds
    show -4294967296 ≤ int16.wrap i * 2 ∧ int16.wrap i * 2 < 4294967296
    omega
  rw [wv_serialize_scalar, h]
  rw [memory_two_big, hsame, hword, residue_sign hholds]

theorem deserialize_network (e : Endian) (t : Scalar) {l : Str} (hl : l.length = t.size.bytes)
    (rest : Str) : wv_deserialize_scalar e t (l ++ rest) = (t.wrap (big.number l : Nat), rest) := by
  have hload (u : Scalar) (hu : u.size = t.size) :
      residue t.size.bytes (u.load e l) = e.number l := by
    rw [Scalar.load, ← hu, u.residue_wrap, residue_natCast]
    exact Nat.mod_eq_of_lt (hu ▸ hl ▸ e.number_lt l)
  have hwrap (u : Scalar) (hu : u.size = t.size) (i : Int) : t.wrap (u.wrap i) = t.wrap i :=
    Scalar.wrap_wrap hu.symm i
  have hlength : ¬ (l ++ rest).length < t.size.bytes := by
    rw [length_append, hl]
    omega
  have htake : (l ++ rest).take t.size.bytes = l := take_left' hl
  have hdrop : (l ++ rest).drop t.size.bytes = rest := drop_left' hl
  have hnetwork : e.network t.size.bytes (e.number l) = big.number l :=
    e.network_number hl
  rw [wv_deserialize_scalar, if_neg hlength]
  obtain ⟨size, signed⟩ := t
  cases size <;> dsimp only [Sizeof.bytes] at hl hload htake hdrop hnetwork ⊢
  case one =>
    have hsame : int8.load e l = int8.wrap (big.number l : Nat) := by
      obtain ⟨b, rfl⟩ := length_eq_one_iff.mp hl
      cases e <;> rfl
    rw [htake, hdrop, hsame, hwrap int8 rfl]
  case two =>
    rw [htake, hdrop, _wv_ntohs, hload int16 rfl, ntohs, hnetwork, hwrap int16 rfl]
  case four =>
    rw [htake, hdrop, _wv_ntohl, hload int32 rfl, ntohl, hnetwork, hwrap int32 rfl]
  case eight =>
    rw [htake, hdrop, hload int64 rfl, ntohll_eq, hnetwork]

theorem deserialize_serialize (e : Endian) {e' : Endian}
    (h : t.size = .two → e' = .little) (hi : t.Holds i) (rest : Str) :
    wv_deserialize_scalar e t (wv_serialize_scalar e' t i ++ rest) = (i, rest) := by
  rw [serialize_network h, deserialize_network e t (length_network _ i), network,
    number_image, Nat.mod_eq_of_lt (residue_lt _ _), t.wrap_residue, Scalar.wrap_eq hi]

theorem deserialize_sign (e : Endian) (h : t.size = .two) (i : Int) (rest : Str) :
    wv_deserialize_scalar e t (wv_serialize_scalar .big t i ++ rest) =
      (t.wrap (if int16.wrap i < 0 then 65535 else 0), rest) := by
  have hlength (n : Nat) : (big.image 2 n).length = t.size.bytes := by
    rw [length_image, h]
    rfl
  rw [serialize_sign h, deserialize_network e t (hlength _), number_image]
  split <;> rfl

/-- An integer of two bytes comes back from a big-endian host if it is its own sign. -/
def Scalar.Survives (e : Endian) (t : Scalar) (i : Int) : Prop :=
  t.size = .two → e = .big → i = 0 ∨ i = -1 ∨ i = 65535

theorem wrap_sign_iff (h : t.size = .two) (hi : t.Holds i) :
    t.wrap (if int16.wrap i < 0 then 65535 else 0) = i ↔ i = 0 ∨ i = -1 ∨ i = 65535 := by
  have hword : int16.wrap i = i.bmod 65536 := rfl
  obtain ⟨size, signed⟩ := t
  obtain rfl : size = .two := h
  rw [hword, Int.bmod_def]
  cases signed with
  | true =>
    obtain ⟨hlow, hhigh⟩ : -65536 ≤ i * 2 ∧ i * 2 < 65536 := hi
    have hwrap (j : Int) : Scalar.wrap ⟨.two, true⟩ j = j.bmod 65536 := rfl
    rw [hwrap, Int.bmod_def]
    split <;> split <;> omega
  | false =>
    obtain ⟨hlow, hhigh⟩ : 0 ≤ i ∧ i < 65536 := hi
    have hwrap (j : Int) : Scalar.wrap ⟨.two, false⟩ j = j % 65536 := rfl
    rw [hwrap]
    split <;> omega

theorem Scalar.deserialize_iff (e : Endian) (hi : t.Holds i) (rest : Str) :
    (wv_deserialize_scalar e t (wv_serialize_scalar e t i ++ rest)).2 = rest ∧
      ((wv_deserialize_scalar e t (wv_serialize_scalar e t i ++ rest)).1 = i ↔ t.Survives e i) := by
  by_cases hbad : t.size = .two ∧ e = .big
  · obtain ⟨htwo, rfl⟩ := hbad
    rw [deserialize_sign .big htwo i rest]
    refine ⟨rfl, (wrap_sign_iff htwo hi).trans ?_⟩
    exact ⟨fun h _ _ => h, fun h => h htwo rfl⟩
  · have hgood : t.size = .two → e = .little := by
      intro htwo
      cases e with
      | little => rfl
      | big => exact absurd ⟨htwo, rfl⟩ hbad
    rw [deserialize_serialize e hgood hi rest]
    exact ⟨rfl, iff_of_true rfl fun htwo hbig => absurd ⟨htwo, hbig⟩ hbad⟩

theorem deserialize_size_t (e : Endian) (lp64 : Bool) {n : Nat} (h : (size_t lp64).Holds n)
    (rest : Str) :
    wv_deserialize_scalar e (size_t lp64) (wv_serialize_scalar e (size_t lp64) n ++ rest) =
      ((n : Int), rest) := by
  apply deserialize_serialize e _ h rest
  cases lp64 <;> rintro ⟨⟩

/-! ## One value -/

namespace WvBuf

theorem strchr_append {s : Str} (h : 0 ∉ s) (rest : Str) :
    strchr (s ++ 0 :: rest) 0 = s.length + 1 := by
  have hnone : s.findIdx? (· == 0) = none := by
    rw [findIdx?_eq_none_iff]
    intro c hc
    exact beq_eq_false_iff_ne.mpr fun hzero => h (hzero ▸ hc)
  have hhead : (0 :: rest : Str).findIdx? (· == 0) = some 0 := rfl
  rw [strchr, findIdx?_append, hnone, hhead]
  exact congrArg (· + 1) (Nat.zero_add s.length)

end WvBuf

theorem deserializeString_short {s : Str} (h : 0 ∉ s) (hlen : s.length + 1 < 2 ^ 32) (rest : Str) :
    deserializeString (s ++ [0] ++ rest) = some (some s, rest) := by
  have hlength : (s ++ [0]).length = s.length + 1 := length_append
  have hcstr : WvBuf.cstr (s ++ [0]) = some s := by
    rw [WvBuf.cstr, if_pos (by simp), takeWhile_append_of_pos]
    · simp
    · intro c hc
      exact bne_iff_ne.mpr fun hzero => h (hzero ▸ hc)
  have hnul : WvBuf.strchr (s ++ [0] ++ rest) 0 % 2 ^ 32 = s.length + 1 := by
    rw [append_assoc, singleton_append, WvBuf.strchr_append h, Nat.mod_eq_of_lt hlen]
  have henough : ¬ (s ++ [0] ++ rest).length < s.length + 1 := by
    rw [length_append, hlength]
    omega
  rw [deserializeString, hnul, if_neg henough, take_left' hlength, drop_left' hlength,
    hcstr, Option.map_some]

theorem deserializeString_long {s : Str} (h : 0 ∉ s) (hlen : 2 ^ 32 ≤ s.length + 1) (rest : Str) :
    deserializeString (s ++ [0] ++ rest) = none := by
  have hnul : WvBuf.strchr (s ++ [0] ++ rest) 0 = s.length + 1 := by
    rw [append_assoc, singleton_append, WvBuf.strchr_append h]
  have hmod : (s.length + 1) % 2 ^ 32 ≤ s.length :=
    Nat.le_of_lt_succ ((Nat.mod_lt _ (by decide)).trans_le hlen)
  rw [deserializeString, hnul]
  generalize (s.length + 1) % 2 ^ 32 = len at hmod
  have henough : ¬ (s ++ [0] ++ rest).length < len := by
    rw [length_append, length_append]
    omega
  have hcut : (s ++ [0] ++ rest).take len = s.take len := by
    rw [append_assoc, take_append_of_le_length hmod]
  have hcstr : WvBuf.cstr (s.take len) = none := if_neg fun hmem => h (mem_of_mem_take hmem)
  rw [if_neg henough, hcut, hcstr, Option.map_none]

/-! ## Any value -/

/-- The value comes back. A string does if its length with the `NUL` is an `unsigned int`. -/
def Ty.Survives (e : Endian) : (t : Ty) → t.Val → Prop
  | .scalar t, i => t.Survives e i
  | .string, s => (s.getD []).length + 1 < 2 ^ 32
  | .buf, _ => True
  | .list t, l => ∀ x ∈ l, t.Survives e x

theorem elements_returns {α : Type} {go : Str → Option (α × Str)} {put : α → Str} {P : α → Prop}
    {l : List α} (h : ∀ x ∈ l, Returns go (put x) x (P x)) :
    Returns (elements go l.length) (l.flatMap put) l (∀ x ∈ l, P x) := by
  induction l with
  | nil => exact ⟨fun _ _ => rfl, fun _ => forall_mem_nil _⟩
  | cons x l ih =>
    rw [forall_mem_cons] at h
    rw [flatMap_cons]
    exact (h.1.cons (ih h.2) Function.injective_id).of_iff forall_mem_cons.symm

theorem wv_deserialize_returns (e : Endian) (lp64 : Bool) (t : Ty) {v : t.Val}
    (hv : t.Holds lp64 v) : Returns (wv_deserialize e lp64 t) (_wv_serialize e lp64 t v) v
      (t.Survives e v) := by
  induction t with
  | scalar t =>
    constructor
    · intro hs rest
      obtain ⟨hrest, hvalue⟩ := Scalar.deserialize_iff e hv rest
      exact congrArg some (Prod.ext (hvalue.mpr hs) hrest)
    · intro rest rest' hread
      obtain ⟨-, hvalue⟩ := Scalar.deserialize_iff e hv rest
      exact hvalue.mp (congrArg Prod.fst (Option.some.inj hread))
  | string =>
    obtain ⟨s, rfl, hs, -⟩ := hv
    constructor
    · exact fun hlen rest => deserializeString_short hs hlen rest
    · intro rest rest' hread
      by_contra hlong
      have hnone := deserializeString_long hs (Nat.le_of_not_lt hlong) rest
      cases hnone.symm.trans hread
  | buf =>
    refine ⟨fun _ rest => ?_, fun _ => trivial⟩
    rw [wv_deserialize, deserializeBuf, _wv_serialize, append_assoc, deserialize_size_t e lp64 hv]
    dsimp only
    rw [Int.toNat_natCast, if_pos (by simp), take_left, drop_left]
  | list t ih =>
    obtain ⟨hcount, hall⟩ := hv
    have helements := elements_returns fun x hx => ih (hall x hx)
    have hread (rest : Str) :
        wv_deserialize e lp64 (.list t) (_wv_serialize e lp64 (.list t) v ++ rest) =
          elements (wv_deserialize e lp64 t) v.length
            (v.flatMap (_wv_serialize e lp64 t) ++ rest) := by
      rw [wv_deserialize, _wv_serialize, append_assoc, deserialize_size_t e lp64 hcount]
      rfl
    constructor
    · exact fun hs rest => (hread rest).trans (helements.reads hs rest)
    · exact fun {rest _} h => helements.only ((hread rest).symm.trans h)

/-! ## The same bytes on every host -/

theorem serialize_alike_scalar {t : Scalar} (h : t.Survives .big i) :
    wv_serialize_scalar .big t i = wv_serialize_scalar .little t i := by
  by_cases htwo : t.size = .two
  · have hsign : (if int16.wrap i < 0 then 65535 else 0) = residue 2 i := by
      rcases h htwo rfl with rfl | rfl | rfl <;> rfl
    rw [serialize_sign htwo, serialize_network (fun _ => rfl), htwo, hsign]
    rfl
  · rw [serialize_network fun heq => absurd heq htwo, serialize_network fun heq => absurd heq htwo]

theorem serialize_alike (lp64 : Bool) {t : Ty} {v : t.Val} (h : t.Survives .big v) :
    _wv_serialize .big lp64 t v = _wv_serialize .little lp64 t v := by
  have hcount (n : Nat) : wv_serialize_scalar .big (size_t lp64) n =
      wv_serialize_scalar .little (size_t lp64) n := by
    apply serialize_alike_scalar
    cases lp64 <;> rintro ⟨⟩
  induction t with
  | scalar t => exact serialize_alike_scalar h
  | string => rfl
  | buf => exact congrArg (· ++ v) (hcount _)
  | list t ih =>
    rw [_wv_serialize, _wv_serialize, hcount]
    congr 1
    exact flatMap_congr fun x hx => ih (h x hx)

theorem Ty.Survives.mono {t : Ty} {v : t.Val} (h : t.Survives .big v) (e : Endian) :
    t.Survives e v := by
  induction t with
  | scalar t => exact fun htwo _ => h htwo rfl
  | string => exact h
  | buf => trivial
  | list t ih => exact fun x hx => ih (h x hx)

/-! ## Values one after the other -/

structure Value (lp64 : Bool) where
  ty : Ty
  val : ty.Val
  holds : ty.Holds lp64 val

namespace Value

variable {lp64 : Bool}

def serialize (e : Endian) (v : Value lp64) : Str := _wv_serialize e lp64 v.ty v.val

def Survives (e : Endian) (v : Value lp64) : Prop := v.ty.Survives e v.val

def serializeAll (e : Endian) (vs : List (Value lp64)) : Str := vs.flatMap (serialize e)

def deserializeAll (e : Endian) (lp64 : Bool) :
    List Ty → Str → Option (List ((t : Ty) × t.Val) × Str)
  | [], buf => some ([], buf)
  | t :: ts, buf =>
    (wv_deserialize e lp64 t buf).bind fun (x, buf) =>
      (deserializeAll e lp64 ts buf).map fun (l, buf) => (⟨t, x⟩ :: l, buf)

/-- The values come back, and what is behind them is left. -/
def ReadsBack (e : Endian) (vs : List (Value lp64)) : Prop :=
  ∀ tail, deserializeAll e lp64 (vs.map ty) (serializeAll e vs ++ tail) =
    some (vs.map fun v => ⟨v.ty, v.val⟩, tail)

/-- The values come back on every host, from the same bytes. -/
def Portable (vs : List (Value lp64)) : Prop :=
  (∀ e, ReadsBack e vs) ∧ serializeAll .big vs = serializeAll .little vs

theorem deserializeAll_returns (e : Endian) (vs : List (Value lp64)) :
    Returns (deserializeAll e lp64 (vs.map ty)) (serializeAll e vs)
      (vs.map fun v => (⟨v.ty, v.val⟩ : (t : Ty) × t.Val)) (∀ v ∈ vs, v.Survives e) := by
  induction vs with
  | nil => exact ⟨fun _ _ => rfl, fun _ => forall_mem_nil _⟩
  | cons v vs ih =>
    have hinj : Function.Injective fun x : v.ty.Val => (⟨v.ty, x⟩ : (t : Ty) × t.Val) :=
      fun x y h => eq_of_heq (Sigma.mk.inj h).2
    have hboth : (v.Survives e ∧ ∀ u ∈ vs, u.Survives e) ↔ ∀ u ∈ v :: vs, u.Survives e :=
      forall_mem_cons.symm
    exact ((wv_deserialize_returns e lp64 v.ty v.holds).cons ih hinj).of_iff hboth

theorem readsBack_iff (e : Endian) (vs : List (Value lp64)) :
    ReadsBack e vs ↔ ∀ v ∈ vs, v.Survives e :=
  (deserializeAll_returns e vs).iff

theorem portable_iff (vs : List (Value lp64)) : Portable vs ↔ ∀ v ∈ vs, v.Survives .big := by
  constructor
  · rintro ⟨hread, -⟩
    exact (readsBack_iff .big vs).mp (hread .big)
  · intro h
    refine ⟨fun e => (readsBack_iff e vs).mpr fun v hv => (h v hv).mono e, ?_⟩
    exact flatMap_congr fun v hv => serialize_alike lp64 (h v hv)

/-- Which values come back, on hosts of one byte order and on all of them. -/
theorem comes_back (vs : List (Value lp64)) :
    (∀ e, ReadsBack e vs ↔ ∀ v ∈ vs, v.Survives e) ∧ (Portable vs ↔ ∀ v ∈ vs, v.Survives .big) :=
  ⟨fun e => readsBack_iff e vs, portable_iff vs⟩

def seven : Value true := ⟨.scalar int16, (7 : Int), by decide, by decide⟩

/-- A big-endian host writes two zeros for it. -/
theorem not_comes_back : ¬ ∀ vs : List (Value true), Portable vs := by
  intro h
  have hsurvives : (7 : Int) = 0 ∨ (7 : Int) = -1 ∨ (7 : Int) = 65535 :=
    (portable_iff [seven]).mp (h [seven]) seven (mem_singleton_self _) rfl rfl
  omega

end Value

end WvSerialize

end WvStreams
