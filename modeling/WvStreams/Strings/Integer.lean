import WvStreams.Strings.CNumber

/-!
# Integers as strings

`wv_uitoar` writes the digits of a number from the last to the first, and `wv_strrev` turns them
around. `wv_itoar` changes the sign of a negative number first, which the least value of a signed
type does not survive: no digit is written for it.
-/

namespace WvStreams

open List

open CStr (hex_digit_val)

/-- The types that a `WvFastString` can be made of. -/
inductive IntType where
  | short
  | unsigned_short
  | int
  | unsigned_int
  | long
  | unsigned_long
  | long_long
  | unsigned_long_long
  deriving DecidableEq

namespace IntType

def bits : IntType → Nat
  | .short | .unsigned_short => 16
  | .int | .unsigned_int => 32
  | .long | .unsigned_long | .long_long | .unsigned_long_long => 64

def signed : IntType → Bool
  | .short | .int | .long | .long_long => true
  | .unsigned_short | .unsigned_int | .unsigned_long | .unsigned_long_long => false

def least (t : IntType) : Int := if t.signed then -2 ^ (t.bits - 1) else 0

def greatest (t : IntType) : Int := if t.signed then 2 ^ (t.bits - 1) - 1 else 2 ^ t.bits - 1

abbrev Value (t : IntType) := { i : Int // t.least ≤ i ∧ i ≤ t.greatest }

def wrap (t : IntType) (i : Int) : Int := if t.signed then i.bmod (2 ^ t.bits) else i % 2 ^ t.bits

end IntType

abbrev minus : Byte := 45

namespace WvFastString

/-- The `switch` of `wv_uitoar`. -/
def digit : Int → Str
  | 0 => [48]
  | 1 => [49]
  | 2 => [50]
  | 3 => [51]
  | 4 => [52]
  | 5 => [53]
  | 6 => [54]
  | 7 => [55]
  | 8 => [56]
  | 9 => [57]
  | _ => []

def digitLoop (i : Int) : Str :=
  if _h : 0 < i then digit (i.tmod 10) ++ digitLoop (i.tdiv 10) else []
termination_by i.toNat
decreasing_by
  rw [Int.tdiv_eq_ediv_of_nonneg (by omega)]
  omega

/-- What stands in front of the `NUL`, reversed. -/
def wv_uitoar (i : Int) : Str := if i = 0 then [48] else digitLoop i

def wv_itoar (t : IntType) (i : Int) : Str :=
  if i < 0 then wv_uitoar (t.wrap (-i)) ++ [minus] else wv_uitoar i

/-- Two bytes change places, as three times one is combined with the other. -/
def xorSwap (s : Str) (i j : Nat) : Str :=
  let s := s.modify i (· ^^^ s.getD j 0)
  let s := s.modify j (· ^^^ s.getD i 0)
  s.modify i (· ^^^ s.getD j 0)

/-- The loop of `wv_strrev`; `last` is the place behind its `end`. -/
def revLoop (s : Str) (first last : Nat) : Str :=
  if first + 1 < last then revLoop (xorSwap s first (last - 1)) (first + 1) (last - 1) else s
termination_by last - first

def wv_strrev (s : Str) : Str := revLoop s 0 s.length

def ofInt (t : IntType) (i : Int) : Str :=
  wv_strrev (if t.signed then wv_itoar t i else wv_uitoar i)

end WvFastString

/-- The number that a text with an optional minus sign stands for. -/
def decimal : Str → Int
  | 45 :: digits => -(number 10 digits : Int)
  | digits => (number 10 digits : Int)

structure Canonical (s : Str) (i : Int) : Prop where
  sign : s.head? = some minus ↔ i < 0
  some_digit : (if i < 0 then s.tail else s) ≠ []
  digits : ∀ c ∈ if i < 0 then s.tail else s, isdigit c = true
  no_leading_zero : (if i < 0 then s.tail else s).head? = some 48 →
    (if i < 0 then s.tail else s) = [48]
  value : decimal s = i

namespace WvFastString

theorem xor_back (a b : Byte) : b ^^^ (a ^^^ b) = a := by
  rw [UInt8.xor_comm a b, ← UInt8.xor_assoc, UInt8.xor_self, UInt8.zero_xor]

theorem xor_there (a b : Byte) : a ^^^ b ^^^ a = b := by
  rw [UInt8.xor_comm, UInt8.xor_comm a b, xor_back]

theorem xorSwap_getElem? {s : Str} {i j : Nat} (hi : i < s.length) (hj : j < s.length) (hne : i ≠ j)
    (k : Nat) : (xorSwap s i j)[k]? = if k = i then s[j]? else if k = j then s[i]? else s[k]? := by
  have hi' : s[i]? = some s[i] := getElem?_eq_getElem hi
  have hj' : s[j]? = some s[j] := getElem?_eq_getElem hj
  simp only [xorSwap, getElem?_modify, getD_eq_getElem?_getD]
  by_cases hki : k = i
  · subst hki
    simp only [if_true, hj', Option.getD_some, hi', Option.map_eq_map, Option.map_some, hne, if_false,
      id_map', xor_back, Ne.symm hne, xor_there]
  · by_cases hkj : k = j
    · subst hkj
      simp only [hne, if_true, if_false, hj', Option.getD_some, hi', Option.map_eq_map,
        Option.map_some, id_map', xor_back, Ne.symm hne]
    · simp [hki, hkj, Ne.symm hki, Ne.symm hkj]

theorem length_xorSwap (s : Str) (i j : Nat) : (xorSwap s i j).length = s.length := by
  simp [xorSwap]

theorem revLoop_getElem? (s : Str) (first last : Nat) (h : last ≤ s.length) (k : Nat) :
    (revLoop s first last)[k]? =
      if first ≤ k ∧ k < last then s[first + last - 1 - k]? else s[k]? := by
  induction s, first, last using revLoop.induct with
  | case1 s first last hlt ih =>
    rw [revLoop, if_pos hlt, ih (by rw [length_xorSwap]; omega)]
    have hswap := xorSwap_getElem? (s := s) (i := first) (j := last - 1) (by omega) (by omega) (by omega)
    rw [hswap, hswap]
    by_cases hinner : first + 1 ≤ k ∧ k < last - 1
    · rw [if_pos hinner, if_neg (by omega), if_neg (by omega), if_pos (by omega)]
      congr 1
      omega
    · rw [if_neg hinner]
      -- one of the two ends, or outside
      split
      · rename_i heq
        rw [if_pos (by omega)]
        congr 1
        omega
      · split
        · rename_i heq
          rw [if_pos (by omega)]
          congr 1
          omega
        · rw [if_neg (by omega)]
  | case2 s first last hle =>
    rw [revLoop, if_neg hle]
    split
    · congr 1
      omega
    · rfl

theorem wv_strrev_eq (s : Str) : wv_strrev s = s.reverse := by
  ext1 k
  rw [wv_strrev, revLoop_getElem? s 0 s.length (Nat.le_refl _)]
  by_cases hk : k < s.length
  · rw [if_pos ⟨Nat.zero_le k, hk⟩, getElem?_reverse hk, Nat.zero_add]
  · rw [if_neg (by omega), getElem?_eq_none (by omega),
      getElem?_eq_none (by rw [length_reverse]; omega)]

theorem digit_spec {d : Int} (h0 : 0 ≤ d) (h10 : d < 10) :
    ∃ c, digit d = [c] ∧ isdigit c = true ∧ ((hex_digit_val c).getD 0).toNat = d.toNat ∧
      (c = 48 → d = 0) := by
  have hall : ∀ n < 10, digit (n : Nat) = [UInt8.ofNat (48 + n)] ∧
      isdigit (UInt8.ofNat (48 + n)) = true ∧
      ((hex_digit_val (UInt8.ofNat (48 + n))).getD 0).toNat = n ∧
      (UInt8.ofNat (48 + n) = 48 → n = 0) := by decide
  obtain ⟨n, rfl⟩ := Int.eq_ofNat_of_zero_le h0
  obtain ⟨hc, hdigit, hvalue, hzero⟩ := hall n (by omega)
  exact ⟨_, hc, hdigit, hvalue, fun h => congrArg Int.ofNat (hzero h)⟩

theorem number_concat (base : Nat) (s : Str) (c : Byte) :
    number base (s ++ [c]) = number base s * base + ((hex_digit_val c).getD 0).toNat := by
  rw [number, foldl_append]
  rfl

/-- The digits of a number, from the last to the first; zero has none. -/
structure Digits (s : Str) (i : Int) : Prop where
  nonempty : 0 < i → s ≠ []
  digits : ∀ c ∈ s, isdigit c = true
  last : s.getLast? ≠ some 48
  value : (number 10 s.reverse : Int) = i

theorem digitLoop_zero : digitLoop 0 = [] := by
  rw [digitLoop, dif_neg (by omega)]

variable {i : Int} {t : IntType}

theorem digitLoop_spec (h : 0 ≤ i) : Digits (digitLoop i) i := by
  induction i using digitLoop.induct with
  | case1 i hpos ih =>
    have hmod : i.tmod 10 = i % 10 := Int.tmod_eq_emod_of_nonneg h
    have hdiv : i.tdiv 10 = i / 10 := Int.tdiv_eq_ediv_of_nonneg h
    obtain ⟨hnonempty, hdigits, hlast, hvalue⟩ := ih (by omega)
    obtain ⟨c, hc, hdigit, hnumber, hzero⟩ :=
      digit_spec (Int.emod_nonneg i (by omega)) (Int.emod_lt_of_pos i (by omega))
    rw [hdiv] at hnonempty hdigits hlast hvalue
    rw [digitLoop, dif_pos hpos, hmod, hdiv, hc]
    refine ⟨fun _ => cons_ne_nil _ _, forall_mem_cons.mpr ⟨hdigit, hdigits⟩, ?_, ?_⟩
    · by_cases hmore : 0 < i / 10
      · rwa [getLast?_append_of_ne_nil _ (hnonempty hmore)]
      · -- the only digit is not zero
        have hend : i / 10 = 0 := by omega
        rw [hend, digitLoop_zero, append_nil, getLast?_singleton]
        intro heq
        have hmod0 := hzero (Option.some.inj heq)
        omega
    · rw [singleton_append, reverse_cons, number_concat, hnumber]
      omega
  | case2 i hle =>
    have hzero : i = 0 := by omega
    rw [hzero, digitLoop_zero]
    exact ⟨fun hpos => absurd hpos (by omega), forall_mem_nil _, by simp, rfl⟩

theorem wv_uitoar_spec (h : 0 ≤ i) :
    (wv_uitoar i).reverse ≠ [] ∧ (∀ c ∈ (wv_uitoar i).reverse, isdigit c = true) ∧
      ((wv_uitoar i).reverse.head? = some 48 → (wv_uitoar i).reverse = [48]) ∧
      (number 10 (wv_uitoar i).reverse : Int) = i := by
  rw [wv_uitoar]
  split
  · rename_i hzero
    subst hzero
    exact ⟨cons_ne_nil _ _, by simp [isdigit], fun _ => rfl, rfl⟩
  · obtain ⟨hnonempty, hdigits, hlast, hvalue⟩ := digitLoop_spec h
    refine ⟨?_, ?_, ?_, hvalue⟩
    · rw [ne_eq, reverse_eq_nil_iff]
      exact hnonempty (by omega)
    · intro c hc
      exact hdigits c (mem_reverse.mp hc)
    · intro hhead
      rw [head?_reverse] at hhead
      exact absurd hhead hlast

theorem wv_uitoar_neg (h : i < 0) : wv_uitoar i = [] := by
  rw [wv_uitoar, if_neg (by omega), digitLoop, dif_neg (by omega)]

theorem decimal_of_digits {s : Str} (h : ∀ c ∈ s, isdigit c = true) : decimal s = number 10 s := by
  unfold decimal
  split
  · rename_i digits
    exact absurd (h 45 mem_cons_self) (by decide)
  · rfl

theorem ofInt_of_nonneg (t : IntType) (h : 0 ≤ i) : ofInt t i = (wv_uitoar i).reverse := by
  have hneg : ¬ i < 0 := by omega
  rw [ofInt, wv_itoar, if_neg hneg, ite_self, wv_strrev_eq]

theorem ofInt_nat (t : IntType) (n : Nat) : ofInt t n ≠ [] ∧
    (∀ c ∈ ofInt t n, isdigit c = true) ∧ number 10 (ofInt t n) = n := by
  obtain ⟨hne, hdigits, -, hvalue⟩ := wv_uitoar_spec (Int.natCast_nonneg n)
  rw [ofInt_of_nonneg t (Int.natCast_nonneg n)]
  exact ⟨hne, hdigits, Int.ofNat_inj.mp hvalue⟩

theorem ofInt_of_neg (ht : t.signed = true) (h : i < 0) :
    ofInt t i = minus :: (wv_uitoar (t.wrap (-i))).reverse := by
  rw [ofInt, if_pos ht, wv_itoar, if_pos h, wv_strrev_eq, reverse_append]
  rfl

theorem wrap_neg (ht : t.signed = true) (hlow : t.least < i) (hneg : i < 0) : t.wrap (-i) = -i := by
  have hbits : 2 ^ t.bits = 2 * 2 ^ (t.bits - 1) := by
    cases t <;> rfl
  have hcast : ((2 ^ (t.bits - 1) : Nat) : Int) = 2 ^ (t.bits - 1) := by
    rw [Int.natCast_pow]
    rfl
  rw [IntType.least, if_pos ht, ← hcast] at hlow
  rw [IntType.wrap, if_pos ht]
  exact Int.bmod_eq_of_le (by omega) (by omega)

theorem wrap_neg_least (ht : t.signed = true) : t.wrap (-t.least) = t.least := by
  rw [IntType.wrap, if_pos ht]
  cases t with
  | short | int | long | long_long => rfl
  | unsigned_short | unsigned_int | unsigned_long | unsigned_long_long => cases ht

theorem least_neg (ht : t.signed = true) : t.least < 0 := by
  rw [IntType.least, if_pos ht]
  exact Int.neg_neg_of_pos (Int.pow_pos (by omega))

theorem canonical_of_nonneg (t : IntType) (h : 0 ≤ i) : Canonical (ofInt t i) i := by
  obtain ⟨hne, hdigits, hlead, hvalue⟩ := wv_uitoar_spec h
  have hneg : ¬ i < 0 := by omega
  rw [ofInt_of_nonneg t h]
  refine ⟨⟨?_, fun hi => absurd hi hneg⟩, ?_, ?_, ?_, ?_⟩
  · intro hhead
    have hmem := mem_of_head? hhead
    exact absurd (hdigits _ hmem) (by decide)
  · rwa [if_neg hneg]
  · rwa [if_neg hneg]
  · rwa [if_neg hneg]
  · rw [decimal_of_digits hdigits, hvalue]

theorem canonical_of_neg (ht : t.signed = true) (hlow : t.least < i) (hneg : i < 0) :
    Canonical (ofInt t i) i := by
  obtain ⟨hne, hdigits, hlead, hvalue⟩ := wv_uitoar_spec (i := -i) (by omega)
  rw [ofInt_of_neg ht hneg, wrap_neg ht hlow hneg]
  refine ⟨⟨fun _ => hneg, fun _ => rfl⟩, ?_, ?_, ?_, ?_⟩
  · rwa [if_pos hneg]
  · rwa [if_pos hneg]
  · rwa [if_pos hneg]
  · rw [decimal, hvalue]
    omega

theorem ofInt_least (ht : t.signed = true) : ofInt t t.least = [minus] := by
  have hneg := least_neg ht
  rw [ofInt_of_neg ht hneg, wrap_neg_least ht, wv_uitoar_neg hneg]
  rfl

/-- The text of a value is the canonical one unless the type is signed and this is its least
value. -/
theorem canonical_iff (t : IntType) (i : t.Value) :
    Canonical (ofInt t i) i ↔ ¬ (t.signed = true ∧ i.val = t.least) := by
  obtain ⟨i, hlow, hhigh⟩ := i
  constructor
  · rintro h ⟨ht, rfl⟩
    have hdigit := h.some_digit
    rw [if_pos (least_neg ht), ofInt_least ht] at hdigit
    exact hdigit rfl
  · intro h
    show Canonical (ofInt t i) i
    by_cases hneg : i < 0
    · have ht : t.signed = true := by
        by_contra ht
        rw [IntType.least, if_neg ht] at hlow
        omega
      have hne : i ≠ t.least := fun heq => h ⟨ht, heq⟩
      exact canonical_of_neg ht (by omega) hneg
    · exact canonical_of_nonneg t (by omega)

/-- The least `short` is written as a minus sign. -/
theorem canonical_fails : ¬ Canonical (ofInt .short (-32768)) (-32768) := by
  intro h
  have htext : ofInt .short (-32768) = [minus] := ofInt_least rfl
  have hdigit := h.some_digit
  rw [htext] at hdigit
  exact hdigit rfl

end WvFastString

end WvStreams
