import WvStreams.Strings.CStr

/-!
# Numbers and comparisons of C strings

A line of text that begins with a digit is read as a number by `strtoul` and `atoi`, up to the
first byte that is not a digit. Numbers that do not fit are cut off as the C library does it.
-/

namespace WvStreams

open List

open CStr (hex_digit_val)

/-- `strncasecmp` is 0. -/
def strncasecmp (s t : Str) (n : Nat) : Bool := (s.take n).map tolower == (t.take n).map tolower

/-- `strstr` finds something. -/
def strstr (haystack needle : Str) : Bool := needle <:+: haystack

/-- `strchr`: the rest of the string from the first such byte. -/
def CStr.strchr (s : Str) (c : Byte) : Option Str :=
  if c ∈ s then some (s.dropWhile (· ≠ c)) else none

def isdigit (c : Byte) : Bool := 48 ≤ c && c ≤ 57

def isxdigit (c : Byte) : Bool := (hex_digit_val c).isSome

def number (base : Nat) (digits : Str) : Nat :=
  digits.foldl (fun n c => n * base + ((hex_digit_val c).getD 0).toNat) 0

def sign : Str → Bool × Str
  | 45 :: s => (true, s)
  | 43 :: s => (false, s)
  | s => (false, s)

/-- The `0x` that may stand in front of a number in base 16. -/
def skip_0x : Str → Str
  | 48 :: x :: c :: s => if (x == 120 || x == 88) && isxdigit c then c :: s else 48 :: x :: c :: s
  | s => s

def strtoul (s : Str) : Nat :=
  let (negative, s) := sign (s.dropWhile isspace)
  let value := number 16 ((skip_0x s).takeWhile isxdigit)
  if 2 ^ 64 ≤ value then 2 ^ 64 - 1 else if negative then (2 ^ 64 - value) % 2 ^ 64 else value

/-- Where `strtoul` in base 16 leaves `endptr`. -/
def strtoul_end (s : Str) : Str :=
  let digits := skip_0x (sign (s.dropWhile isspace)).2
  if digits.takeWhile isxdigit = [] then s else digits.dropWhile isxdigit

def strtol_10 (s : Str) : Int :=
  let (negative, s) := sign (s.dropWhile isspace)
  let value := number 10 (s.takeWhile isdigit)
  if negative then max (-value) (-2 ^ 63) else min value (2 ^ 63 - 1)

def atoi (s : Str) : Int :=
  let (negative, s) := sign (s.dropWhile isspace)
  let value := number 10 (s.takeWhile isdigit)
  let value : Int := if negative then max (-value) (-2 ^ 63) else min value (2 ^ 63 - 1)
  value.bmod (2 ^ 32)

/-- An `int` that is made a `size_t`. -/
def size_of_int (n : Int) : Nat := (n % 2 ^ 64).toNat

variable {c : Byte} {digits rest : Str}

theorem le_of_isxdigit (h : isxdigit c = true) : 48 ≤ c.toNat := by
  rw [isxdigit, hex_digit_val] at h
  split at h
  · rename_i hc
    exact hc.1
  split at h
  · rename_i hc
    exact Nat.le_trans (by decide : 48 ≤ 65) hc.1
  split at h
  · rename_i hc
    exact Nat.le_trans (by decide : 48 ≤ 97) hc.1
  · exact absurd h Bool.false_ne_true

theorem isspace_of_isxdigit (h : isxdigit c = true) : isspace c = false := by
  have hle := le_of_isxdigit h
  have hne : c ≠ 32 := by
    rintro rfl
    exact absurd hle (by decide)
  have hbig : ¬ c ≤ 13 := fun hc => absurd (Nat.le_trans hle hc) (by decide)
  simp [isspace, hne, hbig]

theorem isxdigit_of_isdigit (h : isdigit c = true) : isxdigit c = true := by
  rw [isdigit, Bool.and_eq_true, decide_eq_true_iff, decide_eq_true_iff] at h
  rw [isxdigit, hex_digit_val, if_pos h]
  rfl

theorem sign_cons (h : isxdigit c = true) (s : Str) : sign (c :: s) = (false, c :: s) := by
  rw [sign.eq_3]
  · rintro s' ⟨⟩
    exact Bool.false_ne_true h
  · rintro s' ⟨⟩
    exact Bool.false_ne_true h

theorem skip_0x_of_notMem {s : Str} (h : 120 ∉ s.take 2) (h' : 88 ∉ s.take 2) : skip_0x s = s := by
  rw [skip_0x.eq_def]
  split
  · rename_i x c s
    have hx : x ≠ 120 := by rintro rfl; exact h (by simp)
    have hx' : x ≠ 88 := by rintro rfl; exact h' (by simp)
    rw [if_neg]
    simp [hx, hx']
  · rfl

theorem CStr.strchr_append {a b : Str} (ha : c ∉ a) : strchr (a ++ c :: b) c = some (c :: b) := by
  have hdrop : (a ++ c :: b).dropWhile (· ≠ c) = c :: b := by
    rw [dropWhile_append_of_pos, dropWhile_cons_of_neg (by simp)]
    intro d hd
    exact decide_eq_true fun h => ha (h ▸ hd)
  rw [strchr, if_pos (by simp), hdrop]

theorem CStr.strchr_none {s : Str} (h : c ∉ s) : strchr s c = none := if_neg h

theorem takeWhile_append_of_neg {α : Type} {p : α → Bool} {a b : List α} (ha : ∀ x ∈ a, p x = true)
    (hb : ∀ x ∈ b.head?, p x = false) : (a ++ b).takeWhile p = a := by
  rw [takeWhile_append_of_pos ha]
  cases b with
  | nil => exact append_nil a
  | cons x b => rw [takeWhile_cons_of_neg (by simp [hb x rfl]), append_nil]

theorem dropWhile_append_of_neg {α : Type} {p : α → Bool} {a b : List α} (ha : ∀ x ∈ a, p x = true)
    (hb : ∀ x ∈ b.head?, p x = false) : (a ++ b).dropWhile p = b := by
  rw [dropWhile_append_of_pos ha]
  cases b with
  | nil => rfl
  | cons x b => exact dropWhile_cons_of_neg (by simp [hb x rfl])

theorem sign_digits (hne : digits ≠ []) (hdigits : ∀ c ∈ digits, isxdigit c = true) (rest : Str) :
    sign ((digits ++ rest).dropWhile isspace) = (false, digits ++ rest) := by
  obtain ⟨d, ds, rfl⟩ := exists_cons_of_ne_nil hne
  have hd := hdigits d mem_cons_self
  rw [cons_append, dropWhile_cons_of_neg (by simp [isspace_of_isxdigit hd]), sign_cons hd]

theorem skip_0x_digits (hne : digits ≠ []) (hdigits : ∀ c ∈ digits, isxdigit c = true)
    (hrest : ∀ c ∈ rest.head?, c ≠ 120 ∧ c ≠ 88) : skip_0x (digits ++ rest) = digits ++ rest := by
  obtain ⟨d, ds, rfl⟩ := exists_cons_of_ne_nil hne
  -- neither of the first two bytes is an x
  have hno : ∀ x : Byte, isxdigit x = false → (∀ c ∈ rest.head?, c ≠ x) →
      x ∉ ((d :: ds) ++ rest).take 2 := by
    intro x hx hrest hmem
    have hmem' : x ∈ d :: ds ∨ x ∈ rest.head? := by
      cases ds with
      | nil =>
        cases rest with
        | nil => exact Or.inl (by simpa using hmem)
        | cons c rest =>
          exact (show x = d ∨ x = c by simpa using hmem).imp (by simp_all) (by simp_all)
      | cons e ds =>
        left
        rcases (show x = d ∨ x = e by simpa using hmem) with rfl | rfl <;> simp
    rcases hmem' with hin | hhead
    · exact absurd ((hdigits x hin).symm.trans hx) Bool.true_eq_false_eq_False
    · exact hrest x hhead rfl
  exact skip_0x_of_notMem (hno 120 (by decide) fun c hc => (hrest c hc).1)
    (hno 88 (by decide) fun c hc => (hrest c hc).2)

theorem strtoul_append (hne : digits ≠ []) (hdigits : ∀ c ∈ digits, isxdigit c = true)
    (hrest : ∀ c ∈ rest.head?, isxdigit c = false ∧ c ≠ 120 ∧ c ≠ 88) :
    strtoul (digits ++ rest) = min (number 16 digits) (2 ^ 64 - 1) := by
  have htake := takeWhile_append_of_neg hdigits fun c hc => (hrest c hc).1
  rw [strtoul, sign_digits hne hdigits]
  dsimp only
  rw [skip_0x_digits hne hdigits fun c hc => (hrest c hc).2, htake, if_neg Bool.false_ne_true]
  split <;> omega

theorem strtoul_end_append (hne : digits ≠ []) (hdigits : ∀ c ∈ digits, isxdigit c = true)
    (hrest : ∀ c ∈ rest.head?, isxdigit c = false ∧ c ≠ 120 ∧ c ≠ 88) :
    strtoul_end (digits ++ rest) = rest := by
  have htake := takeWhile_append_of_neg hdigits fun c hc => (hrest c hc).1
  rw [strtoul_end, sign_digits hne hdigits]
  rw [skip_0x_digits hne hdigits fun c hc => (hrest c hc).2, htake, if_neg hne]
  exact dropWhile_append_of_neg hdigits fun c hc => (hrest c hc).1

theorem strtol_10_append (hne : digits ≠ []) (hdigits : ∀ c ∈ digits, isdigit c = true)
    (hrest : ∀ c ∈ rest.head?, isdigit c = false) (hsmall : number 10 digits < 2 ^ 63) :
    strtol_10 (digits ++ rest) = number 10 digits := by
  rw [strtol_10, sign_digits hne fun c hc => isxdigit_of_isdigit (hdigits c hc)]
  dsimp only
  rw [takeWhile_append_of_neg hdigits hrest, if_neg Bool.false_ne_true]
  exact Int.min_eq_left (by omega)

theorem atoi_digits (hne : digits ≠ []) (hdigits : ∀ c ∈ digits, isdigit c = true)
    (hsmall : number 10 digits < 2 ^ 31) : atoi digits = number 10 digits := by
  obtain ⟨d, ds, rfl⟩ := exists_cons_of_ne_nil hne
  have hd := isxdigit_of_isdigit (hdigits d mem_cons_self)
  rw [atoi, dropWhile_cons_of_neg (by simp [isspace_of_isxdigit hd]), sign_cons hd]
  dsimp only
  rw [takeWhile_eq_self_iff.mpr hdigits, if_neg Bool.false_ne_true, Int.min_eq_left (by omega)]
  exact Int.bmod_eq_of_le (by omega) (by omega)

theorem size_of_int_natCast {n : Nat} (h : n < 2 ^ 64) : size_of_int n = n := by
  rw [size_of_int, Int.emod_eq_of_lt (Int.natCast_nonneg n) (by omega), Int.toNat_natCast]

end WvStreams
