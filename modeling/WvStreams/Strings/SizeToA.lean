import WvStreams.Lib.Rounding
import WvStreams.Strings.Integer
import Mathlib.Tactic.IntervalCases

/-!
# Sizes with a prefix

`_sizetoa` writes a size with one decimal place and the smallest prefix for which the rounded
number is below a thousand (`1024` for the IEC prefixes). A size whose tenfold does not fit is
divided by the base of the prefixes first. Whether it fits is read off the wrapped product, which
is not always less than the size.
-/

namespace WvStreams

open WvFastString Option

open Lib (Direction)

inductive RoundingMethod where
  | ROUND_DOWN
  | ROUND_DOWN_AT_POINT_FIVE
  | ROUND_UP_AT_POINT_FIVE
  | ROUND_UP

structure prefix_t where
  name : Option Str
  base : Nat

def si : List prefix_t :=
  [⟨some (bytes "k"), 1000⟩,
   ⟨some (bytes "M"), 1000 * 1000⟩,
   ⟨some (bytes "G"), 1000 * 1000 * 1000⟩,
   ⟨some (bytes "T"), 1000 * 1000 * 1000 * 1000⟩,
   ⟨some (bytes "P"), 1000 * 1000 * 1000 * 1000 * 1000⟩,
   ⟨some (bytes "E"), 1000 * 1000 * 1000 * 1000 * 1000 * 1000⟩,
   ⟨some (bytes "Z"), 0⟩,
   ⟨some (bytes "Y"), 0⟩,
   ⟨none, 0⟩]

def iec : List prefix_t :=
  [⟨some (bytes "Ki"), 1024⟩,
   ⟨some (bytes "Mi"), 1024 * 1024⟩,
   ⟨some (bytes "Gi"), 1024 * 1024 * 1024⟩,
   ⟨some (bytes "Ti"), 1024 * 1024 * 1024 * 1024⟩,
   ⟨some (bytes "Pi"), 1024 * 1024 * 1024 * 1024 * 1024⟩,
   ⟨some (bytes "Ei"), 1024 * 1024 * 1024 * 1024 * 1024 * 1024⟩,
   ⟨some (bytes "Zi"), 0⟩,
   ⟨some (bytes "Yi"), 0⟩,
   ⟨none, 0⟩]

/-- The value of a product in `unsigned long long`. -/
def ull (n : Nat) : Nat := n % 2 ^ 64

/-- `size` is ten times the number. -/
def _sizetoa_rounder (method : RoundingMethod) (size remainder base : Nat) : Nat :=
  let half := base / 2
  let significant_digits := size / base
  match method with
  | .ROUND_DOWN => significant_digits
  | .ROUND_UP =>
    if remainder ≠ 0 ∨ size % base ≠ 0 then significant_digits + 1 else significant_digits
  | .ROUND_UP_AT_POINT_FIVE =>
    if half ≤ size % base then significant_digits + 1 else significant_digits
  | .ROUND_DOWN_AT_POINT_FIVE =>
    let r := size % base
    if half < r ∨ (remainder ≠ 0 ∧ r = half) then significant_digits + 1 else significant_digits

namespace SizeToA

/-- The loop that takes the groups off `blocksize`: what is left, what was before the last step
and how many steps there were. -/
def groupLoop (group_base : Nat) (hbase : 1 < group_base) (blocksize prev_blocksize shift : Nat) :
    Nat × Nat × Nat :=
  if _h : group_base ≤ blocksize then
    groupLoop group_base hbase (blocksize / group_base) blocksize (shift + 1)
  else (blocksize, prev_blocksize, shift)
termination_by blocksize
decreasing_by exact Nat.div_lt_self (by omega) hbase

/-- `size`, `remainder` and what is added to `shift` when the tenfold has been looked at. -/
def scaleBig (group_base size : Nat) : Nat × Nat × Nat :=
  if ull (size * 10) < size then (size / group_base, size % group_base, 1) else (size, 0, 0)

/-- The loop over the prefixes: `p + 1` and `significant_digits` behind it. It begins at the
prefix with the index `p`, and `none` is a division by zero or a place behind the table. -/
def prefixLoop (method : RoundingMethod) (prefixes : List prefix_t)
    (group_base size remainder shift : Nat) (p : Nat) : List prefix_t → Option (Nat × Nat)
  | [] => none
  | entry :: rest =>
    let significant_digits := _sizetoa_rounder method (ull (size * 10)) remainder entry.base
    if entry.base = 0 then none
    else if significant_digits < group_base * 10 then some (p + 1, significant_digits)
    else
      match prefixes[p + shift + 1]? with
      | none => none
      | some next =>
        if next.name.isNone then some (p + 1, significant_digits)
        else prefixLoop method prefixes group_base size remainder shift (p + 1) rest

/-- The loop for a block size that is no power of the base; the list begins with
`prefixes[p + shift + 1]`. -/
def correctLoop (method : RoundingMethod) (group_base : Nat) (significant_digits steps : Nat) :
    List prefix_t → Option (Nat × Nat)
  | [] => if group_base * 10 ≤ significant_digits then none else some (steps, significant_digits)
  | entry :: rest =>
    if group_base * 10 ≤ significant_digits ∧ entry.name.isSome then
      correctLoop method group_base
        (_sizetoa_rounder method significant_digits 0 group_base) (steps + 1) rest
    else some (steps, significant_digits)

def render (significant_digits : Nat) (name unit : Str) : Str :=
  WvFastString.ofInt .unsigned_long_long (significant_digits / 10 : Nat) ++ bytes "." ++
    WvFastString.ofInt .unsigned_long_long (significant_digits % 10 : Nat) ++ bytes " " ++
    name ++ unit

/-- The text once the digits are known; `q` is `p + shift + 1`. -/
def result (prefixes : List prefix_t) (q significant_digits : Nat) (unit : Str) : Option Str :=
  -- with no step of a loop and no shift this is the place in front of the table
  if q = 0 then none
  else (prefixes[q - 1]?).map fun entry =>
    render significant_digits (entry.name.getD (bytes "(nil)")) unit

end SizeToA

open SizeToA

/-- `none` is a failed assertion or a read outside the table. -/
def _sizetoa (size blocksize : Nat) (rounding_method : RoundingMethod) (prefixes : List prefix_t)
    (unit : Str) : Option Str :=
  let group_base := (prefixes.map (·.base)).headD 0
  if blocksize = 0 then none
  else if hbase : 1 < group_base then do
    let (rest, prev_blocksize, shift) := groupLoop group_base hbase blocksize 0 0
    let (blocksize, shift) :=
      -- a very large block size keeps its last group
      if prev_blocksize ≠ 0 ∧ prev_blocksize ≠ group_base then (prev_blocksize, shift - 1)
      else (rest, shift)
    let (scaled, remainder, more) := scaleBig group_base size
    let shift := shift + more
    let (q, significant_digits) ←
      if group_base ≤ scaled then
        prefixLoop rounding_method prefixes group_base scaled remainder shift 0 prefixes
      else some (0, ull (size * 10))
    let (q, significant_digits) ←
      if 1 < blocksize then
        correctLoop rounding_method group_base (ull (significant_digits * blocksize)) q
          (prefixes.drop (q + shift))
      else some (q, significant_digits)
    result prefixes (q + shift) significant_digits unit
  else none

def sizetoa (blocks : Nat) (blocksize : Nat := 1)
    (rounding_method : RoundingMethod := .ROUND_UP_AT_POINT_FIVE) : Option Str :=
  let b := ull (blocks * blocksize)
  if b < 1000 ∧ blocks ≤ b then
    some (WvFastString.ofInt .unsigned_long_long b ++ bytes " bytes")
  else _sizetoa blocks blocksize rounding_method si (bytes "B")

def sizektoa (kbytes : Nat) (rounding_method : RoundingMethod := .ROUND_UP_AT_POINT_FIVE) :
    Option Str :=
  if kbytes < 1000 then some (WvFastString.ofInt .unsigned_long_long kbytes ++ bytes " kB")
  else sizetoa kbytes 1000 rounding_method

def sizeitoa (blocks : Nat) (blocksize : Nat := 1)
    (rounding_method : RoundingMethod := .ROUND_UP_AT_POINT_FIVE) : Option Str :=
  let b := ull (blocks * blocksize)
  if b < 1024 ∧ blocks ≤ b then
    some (WvFastString.ofInt .unsigned_long_long b ++ bytes " bytes")
  else _sizetoa blocks blocksize rounding_method iec (bytes "B")

/-! ## What the text says -/

def RoundingMethod.direction : RoundingMethod → Direction
  | .ROUND_DOWN => .down
  | .ROUND_DOWN_AT_POINT_FIVE => .half_down
  | .ROUND_UP_AT_POINT_FIVE => .half_up
  | .ROUND_UP => .up

namespace SizeToA

/-- The tenths that are shown of a size: it is divided by the unit of the prefix with the
index `j` and rounded to one decimal place. -/
def tenths (m : RoundingMethod) (g size j : Nat) : Int :=
  m.direction.round (((10 * size : Nat) : ℚ) / (g ^ (j + 1) : Nat))

/-- The text is `x.y P`, and there is at least one unit. -/
structure Displays (m : RoundingMethod) (prefixes : List prefix_t) (g size j : Nat) (s : Str) :
    Prop where
  text : ∃ name x y, (prefixes[j]?).bind (·.name) = some name ∧
    Canonical x (tenths m g size j / 10) ∧ Canonical y (tenths m g size j % 10) ∧
    s = x ++ bytes "." ++ y ++ bytes " " ++ name ++ bytes "B"
  one_unit : 10 ≤ tenths m g size j

/-- The first prefix with which the rounded number is below the base. -/
structure Smallest (m : RoundingMethod) (g size j : Nat) : Prop where
  below : tenths m g size j < 10 * g
  before : ∀ i < j, 10 * (g : Int) ≤ tenths m g size i

/-- The text shows the size with the smallest prefix that will do. -/
def Shows (m : RoundingMethod) (prefixes : List prefix_t) (g size : Nat) (s : Str) : Prop :=
  ∃ j, Displays m prefixes g size j s ∧ Smallest m g size j

def Bare (n : Nat) (words s : Str) : Prop := ∃ x, Canonical x n ∧ s = x ++ words

/-- The tenfold fits, or the wrapped product shows that it does not. -/
def Noticed (size : Nat) : Prop := size * 10 < 2 ^ 64 ∨ ull (size * 10) < size

/-- The last ten bits of the size carry over no half tenth of an exbibyte. -/
def LittleLost (size : Nat) : Prop := 10 * size / 2 ^ 59 = 10 * (size / 1024) / 2 ^ 49

/-- A table of prefixes: the bases are the powers of the first one as far as they fit. -/
structure IsTable (prefixes : List prefix_t) (g : Nat) : Prop where
  bases : ∀ p < 6, (prefixes[p]?).map (·.base) = some (g ^ (p + 1))
  names : ∀ j < 8, ∃ name, (prefixes[j]?).bind (·.name) = some name
  base : g = 1000 ∨ g = 1024

theorem si_table : IsTable si 1000 := by
  refine ⟨by decide, ?_, .inl rfl⟩
  intro j hj
  interval_cases j <;> exact ⟨_, rfl⟩

theorem iec_table : IsTable iec 1024 := by
  refine ⟨by decide, ?_, .inr rfl⟩
  intro j hj
  interval_cases j <;> exact ⟨_, rfl⟩

/-! ## Rounding by quotient and remainder -/

theorem rounder_eq (m : RoundingMethod) (n remainder : Nat) {h : Nat} (hh : 0 < h) :
    _sizetoa_rounder m n remainder (2 * h) =
      n / h / 2 + m.direction.carry (n / h % 2 = 1) (n % h ≠ 0 ∨ remainder ≠ 0) := by
  have hdiv : n / (2 * h) = n / h / 2 := by
    rw [Nat.div_div_eq_div_mul, Nat.mul_comm]
  have hmod : n % (2 * h) = n % h + h * (n / h % 2) := by
    rw [Nat.mul_comm, Nat.mod_mul]
  have hhalf : 2 * h / 2 = h := by omega
  have hlt : n % h < h := Nat.mod_lt n hh
  have htwo := Nat.mod_two_eq_zero_or_one (n / h)
  have hodd : h * (n / h % 2) = if n / h % 2 = 1 then h else 0 := by
    rcases htwo with htwo | htwo <;> simp [htwo]
  unfold _sizetoa_rounder
  simp only [hdiv, hmod, hhalf, hodd]
  cases m <;> simp only [RoundingMethod.direction, Direction.carry] <;> grind

theorem rounder_round (m : RoundingMethod) (n e : Nat) {remainder h g : Nat} (hh : 0 < h)
    (hg : 0 < g) (he : e = 0 ↔ remainder = 0) (hlost : (g * n + e) / (g * h) = n / h) :
    (_sizetoa_rounder m n remainder (2 * h) : Int) =
      m.direction.round (((g * n + e : Nat) : ℚ) / (2 * (g * h) : Nat)) := by
  have hpos : 0 < g * h := Nat.mul_pos hg hh
  have hsum : g * n + e = (g * n + e) / (g * h) * (g * h) + (g * n + e) % (g * h) :=
    (Nat.div_add_mod' _ _).symm
  have hmod : (g * n + e) % (g * h) = g * (n % h) + e := by
    have hn : g * n = n / h * (g * h) + g * (n % h) := by
      conv_lhs => rw [← Nat.div_add_mod n h]
      ring
    rw [hlost] at hsum
    omega
  have hrest : g * (n % h) + e ≠ 0 ↔ n % h ≠ 0 ∨ remainder ≠ 0 := by
    rw [ne_eq, Nat.add_eq_zero_iff, Nat.mul_eq_zero, he]
    omega
  rw [hsum, Direction.round_halves _ (Nat.mod_lt _ hpos), rounder_eq m n remainder hh, hlost, hmod,
    Direction.carry_congr _ Iff.rfl hrest]

theorem div_le_rounder (m : RoundingMethod) (n remainder base : Nat) :
    n / base ≤ _sizetoa_rounder m n remainder base := by
  unfold _sizetoa_rounder
  cases m with
  | ROUND_DOWN => exact le_rfl
  | ROUND_DOWN_AT_POINT_FIVE | ROUND_UP_AT_POINT_FIVE | ROUND_UP =>
    dsimp only
    split
    · exact Nat.le_succ _
    · exact le_rfl

/-! ## Tenths with one prefix and the next -/

section Tenths

variable {m : RoundingMethod} {g size : Nat}

variable {j : Nat}

theorem le_tenths {n : Nat} (hg : 0 < g) (h : n * g ^ (j + 1) ≤ 10 * size) :
    (n : Int) ≤ tenths m g size j := by
  have hpow : (0 : ℚ) < (g ^ (j + 1) : Nat) := by
    exact_mod_cast Nat.pow_pos hg
  apply Direction.le_round
  rw [le_div_iff₀ hpow]
  exact_mod_cast h

theorem tenths_le {n : Nat} (hg : 0 < g) (h : 10 * size ≤ n * g ^ (j + 1)) :
    tenths m g size j ≤ n := by
  have hpow : (0 : ℚ) < (g ^ (j + 1) : Nat) := by
    exact_mod_cast Nat.pow_pos hg
  apply Direction.round_le
  rw [div_le_iff₀ hpow]
  exact_mod_cast h

theorem tenths_large {i : Nat} (hg : 0 < g) (h : g ^ (i + 2) ≤ size) :
    10 * (g : Int) ≤ tenths m g size i := by
  have hle : 10 * g * g ^ (i + 1) ≤ 10 * size := by
    rw [Nat.mul_assoc, ← Nat.pow_succ']
    exact Nat.mul_le_mul_left 10 h
  exact_mod_cast le_tenths hg hle

theorem tenths_succ (hg : 0 < g) (h : 10 * (g : Int) ≤ tenths m g size j) :
    10 ≤ tenths m g size (j + 1) := by
  have hdiv : (((10 * size : Nat) : ℚ) / (g ^ (j + 1 + 1) : Nat)) =
      ((10 * size : Nat) : ℚ) / (g ^ (j + 1) : Nat) / g := by
    rw [Nat.pow_succ g (j + 1), Nat.cast_mul (g ^ (j + 1)) g, div_div]
  rw [tenths, hdiv]
  exact Direction.le_round_div hg h

theorem tenths_scale (hg : 0 < g) (j k : Nat) :
    tenths m g (size * g ^ k) (j + k) = tenths m g size j := by
  have hpow : ((g ^ k : Nat) : ℚ) ≠ 0 := by
    exact_mod_cast (Nat.pow_pos hg).ne'
  have hnum : 10 * (size * g ^ k) = 10 * size * g ^ k := by ring
  have hden : g ^ (j + k + 1) = g ^ (j + 1) * g ^ k := by ring
  rw [tenths, tenths, hnum, hden, Nat.cast_mul _ (g ^ k), Nat.cast_mul _ (g ^ k),
    mul_div_mul_right _ _ hpow]

theorem Smallest.scale {k : Nat} (hg : 0 < g) (hsize : g ≤ size) (h : Smallest m g size j) :
    Smallest m g (size * g ^ k) (j + k) where
  below := by
    rw [tenths_scale hg]
    exact h.below
  before := by
    intro i hi
    rcases Nat.lt_or_ge i k with hik | hik
    · apply tenths_large hg
      calc g ^ (i + 2) = g * g ^ (i + 1) := by rw [Nat.pow_succ']
        _ ≤ size * g ^ k := Nat.mul_le_mul hsize (Nat.pow_le_pow_right hg hik)
    · obtain ⟨i, rfl⟩ : ∃ i', i = i' + k := ⟨i - k, by omega⟩
      rw [tenths_scale hg]
      exact h.before i (by omega)

theorem Smallest.one_unit (hg : 0 < g) (hsize : g ≤ size) (h : Smallest m g size j) :
    10 ≤ tenths m g size j := by
  cases j with
  | zero =>
    apply le_tenths hg
    rw [Nat.pow_one]
    exact Nat.mul_le_mul_left 10 hsize
  | succ j => exact tenths_succ hg (h.before j (Nat.lt_succ_self j))

theorem exists_smallest {bound : Nat} (h : tenths m g size bound < 10 * g) :
    ∃ j ≤ bound, Smallest m g size j := by
  classical
  have hex : ∃ j, tenths m g size j < 10 * g := ⟨bound, h⟩
  refine ⟨Nat.find hex, Nat.find_min' hex h, Nat.find_spec hex, ?_⟩
  intro i hi
  exact not_lt.mp (Nat.find_min hex hi)

end Tenths

/-! ## The loops -/

section Loops

variable {m : RoundingMethod} {prefixes : List prefix_t} {g : Nat}

theorem IsTable.pos (ht : IsTable prefixes g) : 1 < g := by
  rcases ht.base with rfl | rfl <;> omega

theorem IsTable.half (ht : IsTable prefixes g) (i : Nat) :
    0 < g ^ (i + 1) / 2 ∧ 2 * (g ^ (i + 1) / 2) = g ^ (i + 1) := by
  have hdvd : 2 ∣ g ^ (i + 1) := by
    apply Dvd.dvd.pow _ (Nat.succ_ne_zero i)
    rcases ht.base with rfl | rfl <;> omega
  have hpos : 0 < g ^ (i + 1) := Nat.pow_pos (Nat.zero_lt_of_lt ht.pos)
  omega

theorem IsTable.group_base (ht : IsTable prefixes g) : (prefixes.map (·.base)).headD 0 = g := by
  have h0 := ht.bases 0 (by omega)
  cases prefixes with
  | nil => cases h0
  | cons entry rest => simpa using h0

theorem groupLoop_pow (hg : 1 < g) (k prev shift : Nat) :
    groupLoop g hg (g ^ k) prev shift = (1, if k = 0 then prev else g, shift + k) := by
  induction k generalizing prev shift with
  | zero =>
    rw [groupLoop, dif_neg (by rw [Nat.pow_zero]; omega)]
    rfl
  | succ k ih =>
    have hle : g ≤ g ^ (k + 1) := Nat.le_pow (Nat.succ_pos k)
    have hdiv : g ^ (k + 1) / g = g ^ k := by
      rw [Nat.pow_succ, Nat.mul_div_cancel _ (by omega)]
    rw [groupLoop, dif_pos hle, hdiv, ih]
    cases k with
    | zero => simp
    | succ k => simp [Nat.add_assoc, Nat.add_comm 1]

theorem IsTable.drop (ht : IsTable prefixes g) {p : Nat} (hp : p < 6) :
    ∃ entry, prefixes.drop p = entry :: prefixes.drop (p + 1) ∧ entry.base = g ^ (p + 1) := by
  obtain ⟨entry, hget, hbase⟩ := map_eq_some_iff.mp (ht.bases p hp)
  obtain ⟨hlt, rfl⟩ := List.getElem?_eq_some_iff.mp hget
  exact ⟨_, List.drop_eq_getElem_cons hlt, hbase⟩

theorem prefixLoop_eq (ht : IsTable prefixes g) (size remainder shift stop : Nat) (hstop : stop < 6)
    (hshift : stop + shift ≤ 7)
    (hend : _sizetoa_rounder m (ull (size * 10)) remainder (g ^ (stop + 1)) < g * 10)
    {d p : Nat} (hp : p + d = stop) (hlow : ∀ i, p ≤ i → i < stop →
      g * 10 ≤ _sizetoa_rounder m (ull (size * 10)) remainder (g ^ (i + 1))) :
    prefixLoop m prefixes g size remainder shift p (prefixes.drop p) =
      some (stop + 1, _sizetoa_rounder m (ull (size * 10)) remainder (g ^ (stop + 1))) := by
  obtain ⟨entry, hdrop, hbase⟩ := ht.drop (p := p) (by omega)
  have hne : g ^ (p + 1) ≠ 0 := (Nat.pow_pos (Nat.zero_lt_of_lt ht.pos)).ne'
  induction d generalizing p entry with
  | zero =>
    obtain rfl : p = stop := by omega
    rw [hdrop, prefixLoop, hbase, if_neg hne, if_pos hend]
  | succ d ih =>
    have hmany := hlow p le_rfl (by omega)
    obtain ⟨name, hname⟩ := ht.names (p + shift + 1) (by omega)
    obtain ⟨next, hnext, hsome⟩ := bind_eq_some_iff.mp hname
    obtain ⟨entry', hdrop', hbase'⟩ := ht.drop (p := p + 1) (by omega)
    have hne' : g ^ (p + 1 + 1) ≠ 0 := (Nat.pow_pos (Nat.zero_lt_of_lt ht.pos)).ne'
    rw [hdrop, prefixLoop, hbase, if_neg hne, if_neg (not_lt.mpr hmany), hnext]
    simp only [hsome, isNone_some, Bool.false_eq_true, if_false]
    exact ih (by omega) (fun i hi => hlow i (by omega)) entry' hdrop' hbase' hne'

theorem _sizetoa_pow (ht : IsTable prefixes g) (size k : Nat) (unit : Str) :
    _sizetoa size (g ^ k) m prefixes unit =
      (if g ≤ (scaleBig g size).1 then
        prefixLoop m prefixes g (scaleBig g size).1 (scaleBig g size).2.1
          (k + (scaleBig g size).2.2) 0 prefixes
      else some (0, ull (size * 10))).bind fun found =>
        result prefixes (found.1 + (k + (scaleBig g size).2.2)) found.2 unit := by
  have hpos := ht.pos
  have hne : g ^ k ≠ 0 := (Nat.pow_pos (by omega)).ne'
  unfold _sizetoa
  simp only [ht.group_base, if_neg hne, dif_pos hpos, groupLoop_pow hpos]
  have hprev : ¬ ((if k = 0 then 0 else g) ≠ 0 ∧ (if k = 0 then 0 else g) ≠ g) := by
    split <;> omega
  simp only [if_neg hprev, Nat.lt_irrefl, if_false, Nat.zero_add]
  split <;> rfl

theorem result_displays (ht : IsTable prefixes g) {size j d : Nat} (hj : j < 8)
    (hd : (d : Int) = tenths m g size j) (hone : 10 ≤ tenths m g size j) :
    ∃ s, result prefixes (j + 1) d (bytes "B") = some s ∧ Displays m prefixes g size j s := by
  obtain ⟨name, hname⟩ := ht.names j hj
  obtain ⟨entry, hentry, hsome⟩ := bind_eq_some_iff.mp hname
  have hresult : result prefixes (j + 1) d (bytes "B") = some (render d name (bytes "B")) := by
    rw [result, if_neg (Nat.succ_ne_zero j), Nat.add_sub_cancel, hentry, map_some, hsome]
    rfl
  have hx : Canonical (ofInt .unsigned_long_long (d / 10 : Nat))
      (tenths m g size j / 10) := by
    rw [← hd]
    exact canonical_of_nonneg _ (Int.natCast_nonneg _)
  have hy : Canonical (ofInt .unsigned_long_long (d % 10 : Nat))
      (tenths m g size j % 10) := by
    rw [← hd]
    exact canonical_of_nonneg _ (Int.natCast_nonneg _)
  exact ⟨_, hresult, ⟨name, _, _, hname, hx, hy, rfl⟩, hone⟩

theorem tenths_last (ht : IsTable prefixes g) {size : Nat} (hsize : size < 2 ^ 64) :
    tenths m g size 5 < 10 * g := by
  have hle : tenths m g size 5 ≤ (185 : Nat) := by
    apply tenths_le (Nat.zero_lt_of_lt ht.pos)
    rcases ht.base with rfl | rfl <;> omega
  rcases ht.base with rfl | rfl <;> omega

/-! ## The three ways through the function -/

theorem shows_few (ht : IsTable prefixes g) {size k : Nat} (hk : k < 8) (hpos : 0 < size)
    (hsize : size < g) :
    ∃ s, _sizetoa size (g ^ (k + 1)) m prefixes (bytes "B") = some s ∧
      Shows m prefixes g (size * g ^ (k + 1)) s := by
  have hg := Nat.zero_lt_of_lt ht.pos
  have hull : ull (size * 10) = size * 10 := by
    apply Nat.mod_eq_of_lt
    rcases ht.base with rfl | rfl <;> omega
  have hscale : scaleBig g size = (size, 0, 0) := by
    rw [scaleBig, hull, if_neg (by omega)]
  have htenths : tenths m g (size * g ^ (k + 1)) k = (size * 10 : Nat) := by
    have heq : 10 * (size * g ^ (k + 1)) = size * 10 * g ^ (k + 1) := by ring
    exact le_antisymm (tenths_le hg heq.le) (le_tenths hg heq.ge)
  obtain ⟨s, hs, hdisplays⟩ := result_displays (m := m) ht hk htenths.symm (by omega)
  refine ⟨s, ?_, k, hdisplays, ?_, ?_⟩
  · rw [_sizetoa_pow ht, hscale, if_neg (not_le.mpr hsize), hull, bind_some, Nat.zero_add,
      Nat.add_zero, hs]
  · omega
  · intro i hi
    apply tenths_large hg
    calc g ^ (i + 2) ≤ g ^ (k + 1) := Nat.pow_le_pow_right hg (by omega)
      _ ≤ size * g ^ (k + 1) := Nat.le_mul_of_pos_left _ hpos

theorem shows_small (ht : IsTable prefixes g) {size k : Nat} (bound : Nat) (hsize : g ≤ size)
    (hfits : size * 10 < 2 ^ 64) (hbound : bound < 6) (hshift : bound + k ≤ 7)
    (hlow : tenths m g size bound < 10 * g) :
    ∃ s, _sizetoa size (g ^ k) m prefixes (bytes "B") = some s ∧
      Shows m prefixes g (size * g ^ k) s := by
  have hg := Nat.zero_lt_of_lt ht.pos
  have hull : ull (size * 10) = size * 10 := Nat.mod_eq_of_lt hfits
  have hscale : scaleBig g size = (size, 0, 0) := by
    rw [scaleBig, hull, if_neg (by omega)]
  have hdigits : ∀ i, (_sizetoa_rounder m (ull (size * 10)) 0 (g ^ (i + 1)) : Int) =
      tenths m g size i := by
    intro i
    obtain ⟨hhalf, htwo⟩ := ht.half i
    have hround := rounder_round m (10 * size) 0 (g := 1) hhalf Nat.one_pos Iff.rfl (by simp)
    rw [htwo, Nat.one_mul, Nat.one_mul, Nat.add_zero, htwo] at hround
    rwa [hull, Nat.mul_comm size 10]
  obtain ⟨stop, hstop, hsmall⟩ := exists_smallest hlow
  have hloop := prefixLoop_eq (m := m) ht size 0 k stop (by omega) (by omega)
    (by have := hsmall.below; have := hdigits stop; omega)
    (Nat.zero_add stop) (fun i _ hi => by have := hsmall.before i hi; have := hdigits i; omega)
  have hone := hsmall.one_unit hg hsize
  rw [← tenths_scale hg stop k] at hone
  obtain ⟨s, hs, hdisplays⟩ := result_displays (m := m) ht (j := stop + k) (by omega)
    ((hdigits stop).trans (tenths_scale hg stop k).symm) hone
  refine ⟨s, ?_, stop + k, hdisplays, hsmall.scale hg hsize⟩
  rw [List.drop_zero] at hloop
  rw [_sizetoa_pow ht, hscale, if_pos hsize, Nat.add_zero, hloop, bind_some, Nat.add_right_comm, hs]

theorem shows_big (ht : IsTable prefixes g) {size k : Nat} (hk : k ≤ 2) (hlt : size < 2 ^ 64)
    (hover : ull (size * 10) < size)
    (hlost : 10 * size / (g * (g ^ 5 / 2)) = 10 * (size / g) / (g ^ 5 / 2)) :
    ∃ s, _sizetoa size (g ^ k) m prefixes (bytes "B") = some s ∧
      Shows m prefixes g (size * g ^ k) s := by
  have hg := Nat.zero_lt_of_lt ht.pos
  have hbig : 2 ^ 64 ≤ size * 10 := by
    by_contra hsmall
    rw [ull, Nat.mod_eq_of_lt (not_le.mp hsmall)] at hover
    omega
  have hsize : g ^ 6 ≤ size := by
    rcases ht.base with rfl | rfl <;> omega
  have hquot : g ^ 5 ≤ size / g := by
    rw [Nat.le_div_iff_mul_le hg]
    exact hsize
  have hfits : size / g * 10 < 2 ^ 64 := by
    rcases ht.base with rfl | rfl <;> omega
  have hull : ull (size / g * 10) = size / g * 10 := Nat.mod_eq_of_lt hfits
  have hscale : scaleBig g size = (size / g, size % g, 1) := by
    rw [scaleBig, if_pos hover]
  have hdigits : (_sizetoa_rounder m (ull (size / g * 10)) (size % g) (g ^ (4 + 1)) : Int) =
      tenths m g size 5 := by
    obtain ⟨hhalf, htwo⟩ := ht.half 4
    have hsum : g * (10 * (size / g)) + 10 * (size % g) = 10 * size := by
      calc g * (10 * (size / g)) + 10 * (size % g) = 10 * (g * (size / g) + size % g) := by ring
        _ = 10 * size := by rw [Nat.div_add_mod]
    have hden : 2 * (g * (g ^ (4 + 1) / 2)) = g ^ (5 + 1) := by
      rw [Nat.mul_left_comm, htwo, ← Nat.pow_succ']
    have hdivided : 10 * (size % g) = 0 ↔ size % g = 0 := by omega
    have hround := rounder_round m (10 * (size / g)) (10 * (size % g)) hhalf hg hdivided
      (by rw [hsum]; exact hlost)
    rw [htwo, hsum, hden] at hround
    rwa [hull, Nat.mul_comm (size / g) 10]
  have hmany : ∀ i, i < 4 →
      g * 10 ≤ _sizetoa_rounder m (ull (size / g * 10)) (size % g) (g ^ (i + 1)) := by
    intro i hi
    refine le_trans ?_ (div_le_rounder m _ _ _)
    rw [hull, Nat.le_div_iff_mul_le (Nat.pow_pos hg)]
    calc g * 10 * g ^ (i + 1) = g ^ (i + 2) * 10 := by ring
      _ ≤ g ^ 5 * 10 := Nat.mul_le_mul_right 10 (Nat.pow_le_pow_right hg (by omega))
      _ ≤ size / g * 10 := Nat.mul_le_mul_right 10 hquot
  have hsmall : Smallest m g size 5 := by
    refine ⟨tenths_last ht hlt, fun i hi => tenths_large hg ?_⟩
    exact (Nat.pow_le_pow_right hg (by omega)).trans hsize
  have hbase : g ≤ size := (Nat.le_pow (by omega)).trans hsize
  have hloop := prefixLoop_eq (m := m) ht (size / g) (size % g) (k + 1) 4 (by omega) (by omega)
    (by have := hsmall.below; omega) (Nat.zero_add 4) (fun i _ hi => hmany i hi)
  have hone := hsmall.one_unit hg hbase
  rw [← tenths_scale hg 5 k] at hone
  obtain ⟨s, hs, hdisplays⟩ := result_displays (m := m) ht (j := 5 + k) (by omega)
    (hdigits.trans (tenths_scale hg 5 k).symm) hone
  refine ⟨s, ?_, 5 + k, hdisplays, hsmall.scale hg hbase⟩
  have hplace : 4 + 1 + (k + 1) = 5 + k + 1 := by omega
  rw [List.drop_zero] at hloop
  rw [_sizetoa_pow ht, hscale, if_pos ((Nat.le_pow (by omega)).trans hquot), hloop,
    bind_some, hplace, hs]

theorem shows_blocks (ht : IsTable prefixes g) (blocks k : Nat) (hsize : blocks * g ^ k < 2 ^ 64)
    (hmany : g ≤ blocks * g ^ k) (hnoticed : Noticed blocks) (hlost : 2 ^ 64 ≤ blocks * 10 →
      10 * blocks / (g * (g ^ 5 / 2)) = 10 * (blocks / g) / (g ^ 5 / 2)) :
    ∃ s, _sizetoa blocks (g ^ k) m prefixes (bytes "B") = some s ∧
      Shows m prefixes g (blocks * g ^ k) s := by
  have hg := Nat.zero_lt_of_lt ht.pos
  have hpos : 0 < blocks := by
    apply Nat.pos_of_ne_zero
    rintro rfl
    omega
  have hfew : ∀ n, g ^ n ≤ blocks * g ^ k → n ≤ 6 := by
    intro n hn
    by_contra hlarge
    have hseven : g ^ 7 ≤ g ^ n := Nat.pow_le_pow_right hg (by omega)
    rcases ht.base with rfl | rfl <;> omega
  rcases Nat.lt_or_ge blocks g with hlt | hge
  · obtain ⟨k, rfl⟩ : ∃ k', k = k' + 1 := by
      apply Nat.exists_eq_succ_of_ne_zero
      rintro rfl
      rw [Nat.pow_zero, Nat.mul_one] at hmany
      omega
    have := hfew (k + 1) (Nat.le_mul_of_pos_left _ hpos)
    exact shows_few ht (by omega) hpos hlt
  · have hk : k + 1 ≤ 6 := by
      apply hfew
      rw [Nat.pow_succ']
      exact Nat.mul_le_mul_right _ hge
    by_cases hfits : blocks * 10 < 2 ^ 64
    · apply shows_small ht (5 - k) hge hfits (by omega) (by omega)
      rw [← tenths_scale hg (5 - k) k, Nat.sub_add_cancel (by omega)]
      exact tenths_last ht hsize
    · have hle : blocks ≤ blocks * g ^ k := Nat.le_mul_of_pos_right _ (Nat.pow_pos hg)
      have hk0 : k = 0 := by
        by_contra hne
        have hbase : blocks * g ≤ blocks * g ^ k := Nat.mul_le_mul_left _ (Nat.le_pow (by omega))
        rcases ht.base with rfl | rfl <;> omega
      exact shows_big ht (by omega) (by omega) (hnoticed.resolve_left hfits) (hlost (by omega))

theorem bare_ofInt (n : Nat) (words : Str) : Bare n words (ofInt .unsigned_long_long n ++ words) :=
  ⟨_, canonical_of_nonneg _ (Int.natCast_nonneg n), rfl⟩

theorem bare_or_shows (ht : IsTable prefixes g) (blocks k : Nat) (hsize : blocks * g ^ k < 2 ^ 64)
    (hnoticed : Noticed blocks) (hlost : 2 ^ 64 ≤ blocks * 10 →
      10 * blocks / (g * (g ^ 5 / 2)) = 10 * (blocks / g) / (g ^ 5 / 2)) :
    ∃ s, (if ull (blocks * g ^ k) < g ∧ blocks ≤ ull (blocks * g ^ k) then
        some (ofInt .unsigned_long_long (ull (blocks * g ^ k)) ++ bytes " bytes")
      else _sizetoa blocks (g ^ k) m prefixes (bytes "B")) = some s ∧
      if blocks * g ^ k < g then Bare (blocks * g ^ k) (bytes " bytes") s
      else Shows m prefixes g (blocks * g ^ k) s := by
  have hle : blocks ≤ blocks * g ^ k :=
    Nat.le_mul_of_pos_right _ (Nat.pow_pos (Nat.zero_lt_of_lt ht.pos))
  have hull : ull (blocks * g ^ k) = blocks * g ^ k := Nat.mod_eq_of_lt hsize
  simp only [hull, hle, and_true]
  by_cases hfew : blocks * g ^ k < g
  · simp only [if_pos hfew]
    exact ⟨_, rfl, bare_ofInt _ _⟩
  · simp only [if_neg hfew]
    exact shows_blocks ht blocks k hsize (not_lt.mp hfew) hnoticed hlost

end Loops

theorem si_lost (size : Nat) :
    10 * size / (1000 * (1000 ^ 5 / 2)) = 10 * (size / 1000) / (1000 ^ 5 / 2) := by
  omega

theorem scaleBig_fits {g size : Nat} (hg : g = 1000 ∨ g = 1024) (hlt : size < 2 ^ 64)
    (hnoticed : Noticed size) : (scaleBig g size).1 * 10 < 2 ^ 64 := by
  unfold scaleBig
  split
  · rcases hg with rfl | rfl <;> dsimp only <;> omega
  · next hsmall => exact hnoticed.resolve_right hsmall

/-- A size is written with the smallest prefix that leaves less than a thousand of its units, and
is right in the last place by every method, where an overflow of its tenfold is noticed and, with
the IEC prefixes, the bits that are divided off then do not carry. -/
theorem sizes_rounded (m : RoundingMethod) :
    (∀ blocks k, blocks * 1000 ^ k < 2 ^ 64 → Noticed blocks →
      ∃ s, sizetoa blocks (1000 ^ k) m = some s ∧
        if blocks * 1000 ^ k < 1000 then Bare (blocks * 1000 ^ k) (bytes " bytes") s
        else Shows m si 1000 (blocks * 1000 ^ k) s) ∧ (∀ kbytes < 2 ^ 64, Noticed kbytes →
      ∃ s, sizektoa kbytes m = some s ∧ if kbytes < 1000 then Bare kbytes (bytes " kB") s
        else Shows m si 1000 (kbytes * 1000) s) ∧
    (∀ blocks k, blocks * 1024 ^ k < 2 ^ 64 → Noticed blocks →
      (2 ^ 64 ≤ blocks * 10 → LittleLost blocks) → ∃ s, sizeitoa blocks (1024 ^ k) m = some s ∧
        if blocks * 1024 ^ k < 1024 then Bare (blocks * 1024 ^ k) (bytes " bytes") s
        else Shows m iec 1024 (blocks * 1024 ^ k) s) ∧
    ∀ g size, g = 1000 ∨ g = 1024 → size < 2 ^ 64 → Noticed size →
      (scaleBig g size).1 * 10 < 2 ^ 64 := by
  refine ⟨?_, ?_, ?_, fun g size hg hlt hnoticed => scaleBig_fits hg hlt hnoticed⟩
  · intro blocks k hsize hnoticed
    exact bare_or_shows si_table blocks k hsize hnoticed fun _ => si_lost blocks
  · intro kbytes hlt hnoticed
    unfold sizektoa
    by_cases hfew : kbytes < 1000
    · simp only [if_pos hfew]
      exact ⟨_, rfl, bare_ofInt _ _⟩
    · simp only [if_neg hfew]
      unfold sizetoa
      simp only
      rw [if_neg (by omega)]
      by_cases hfits : kbytes * 10 < 2 ^ 64
      · exact shows_small (k := 1) si_table 5 (not_lt.mp hfew) hfits (by omega) (by omega)
          (tenths_last si_table hlt)
      · exact shows_big (k := 1) si_table (by omega) hlt (hnoticed.resolve_left hfits)
          (si_lost kbytes)
  · intro blocks k hsize hnoticed hlost
    exact bare_or_shows iec_table blocks k hsize hnoticed hlost

theorem sizes_rounded_carry :
    (∃ s, sizetoa 999950 (1000 ^ 0) .ROUND_UP_AT_POINT_FIVE = some s ∧
      if 999950 * 1000 ^ 0 < 1000 then Bare (999950 * 1000 ^ 0) (bytes " bytes") s
      else Shows .ROUND_UP_AT_POINT_FIVE si 1000 (999950 * 1000 ^ 0) s) ∧
    (∃ s, sizektoa (2 ^ 64 - 1) .ROUND_UP = some s ∧
      if 2 ^ 64 - 1 < 1000 then Bare (2 ^ 64 - 1) (bytes " kB") s
      else Shows .ROUND_UP si 1000 ((2 ^ 64 - 1) * 1000) s) ∧
    (∃ s, sizeitoa (2 ^ 64 - 1) (1024 ^ 0) .ROUND_DOWN = some s ∧
      if (2 ^ 64 - 1) * 1024 ^ 0 < 1024 then Bare ((2 ^ 64 - 1) * 1024 ^ 0) (bytes " bytes") s
      else Shows .ROUND_DOWN iec 1024 ((2 ^ 64 - 1) * 1024 ^ 0) s) ∧
    (scaleBig 1000 (2 ^ 64 - 1)).1 * 10 < 2 ^ 64 :=
  ⟨(sizes_rounded _).1 999950 0 (by decide) (.inl (by decide)),
    (sizes_rounded _).2.1 (2 ^ 64 - 1) (by decide) (.inr (by decide)),
    (sizes_rounded _).2.2.1 (2 ^ 64 - 1) 0 (by decide) (.inr (by decide)) (fun _ => by
      unfold LittleLost
      omega),
    (sizes_rounded .ROUND_UP).2.2.2 1000 (2 ^ 64 - 1) (.inl rfl) (by decide) (.inr (by decide))⟩

theorem text_name_inj {x y x' y' name name' : Str} (hlen : name.length = name'.length)
    (h : x ++ bytes "." ++ y ++ bytes " " ++ name ++ bytes "B" =
      x' ++ bytes "." ++ y' ++ bytes " " ++ name' ++ bytes "B") : name = name' :=
  (List.append_inj' (List.append_cancel_right h) hlen).2

/-- The largest prefix that shows one unit after rounding is not the one that is chosen: with
`999949` bytes a megabyte would do. -/
theorem not_largest : ∃ s, sizetoa 999949 = some s ∧
    ¬ ∃ j, Displays .ROUND_UP_AT_POINT_FIVE si 1000 999949 j s ∧
      ∀ i, j < i → i < 8 → tenths .ROUND_UP_AT_POINT_FIVE 1000 999949 i < 10 := by
  have hkilo : tenths .ROUND_UP_AT_POINT_FIVE 1000 999949 0 < 10 * (1000 : Nat) := by
    apply Int.floor_lt.mpr
    norm_num
  have hmega : 10 ≤ tenths .ROUND_UP_AT_POINT_FIVE 1000 999949 1 := by
    apply Int.le_floor.mpr
    norm_num
  have hgiga : ∀ j, tenths .ROUND_UP_AT_POINT_FIVE 1000 999949 (j + 2) < 10 := by
    intro j
    refine lt_of_le_of_lt (tenths_le (n := 1) (by omega) ?_) (by decide)
    have := Nat.pow_le_pow_right (n := 1000) (by omega) (by omega : 3 ≤ j + 2 + 1)
    omega
  obtain ⟨s, hs, i, hshown, hsmall⟩ := shows_blocks (m := .ROUND_UP_AT_POINT_FIVE) si_table
    999949 0 (by omega) (by omega) (.inl (by omega)) (by omega)
  refine ⟨s, hs, ?_⟩
  rintro ⟨j, hdisplays, hlargest⟩
  obtain rfl : i = 0 := by
    by_contra hne
    exact absurd (hsmall.before 0 (Nat.pos_of_ne_zero hne)) (not_le.mpr hkilo)
  obtain rfl : j = 1 := by
    rcases j with _ | _ | j
    · exact absurd (hlargest 1 (by omega) (by omega)) (not_lt.mpr hmega)
    · rfl
    · exact absurd hdisplays.one_unit (not_le.mpr (hgiga j))
  obtain ⟨name, x, y, hname, -, -, rfl⟩ := hdisplays.text
  obtain ⟨name', x', y', hname', -, -, heq⟩ := hshown.text
  obtain rfl : bytes "M" = name := some.inj hname
  obtain rfl : bytes "k" = name' := some.inj hname'
  have hlen : (bytes "M").length = (bytes "k").length := by decide
  have hsame : bytes "M" = bytes "k" := text_name_inj hlen heq
  exact absurd hsame (by decide)

end SizeToA

end WvStreams
