import WvStreams.ConfigFile.WvConfEmu

/-!
# How numbers are read

`check_for_bool_string` reads a number in base 10, and knows some words; `str2int` reads it in the
base that its prefix tells, and knows others. `readAlike_iff` says which texts are the same number
to both of them.
-/

namespace WvStreams

open Lib WvConf WvFastString List Option IntType

/-- The words that mean the same to both. -/
def common_words : List Str :=
  [bytes "true", bytes "yes", bytes "on", bytes "false", bytes "no", bytes "off", bytes "disabled"]

/-- A number is the same in base 10. What is no number is one of the words, or is not known to
`str2int`, which then returns the default that has to be 0. -/
def ReadAlike (value : Str) (defvalue : Int) : Prop :=
  match strtol value with
  | some num => num.bmod (2 ^ 32) = atoi value
  | none => (fold value : Segment) ∈ common_words ∨
      (defvalue = 0 ∧ (fold value : Segment) ≠ bytes "enabled")

theorem digit_lt_ten (c : Byte) : digit c < 10 ↔ isdigit c = true := by
  have hall : ∀ n < 256, digit (UInt8.ofNat n) < 10 ↔ isdigit (UInt8.ofNat n) = true := by
    decide +kernel
  have hc := hall c.toNat (UInt8.toNat_lt c)
  rwa [UInt8.ofNat_toNat] at hc

theorem not_number {c : Byte} (h : 58 ≤ c) :
    isspace c = false ∧ ¬ digit c < 10 ∧ c ≠ 45 ∧ c ≠ 43 ∧ c ≠ 48 := by
  have hall : ∀ n < 256, 58 ≤ n → isspace (UInt8.ofNat n) = false ∧
      ¬ digit (UInt8.ofNat n) < 10 ∧ UInt8.ofNat n ≠ 45 ∧ UInt8.ofNat n ≠ 43 ∧
      UInt8.ofNat n ≠ 48 := by decide +kernel
  have hc := hall c.toNat (UInt8.toNat_lt c) (UInt8.le_iff_toNat_le.mp h)
  rwa [UInt8.ofNat_toNat] at hc

variable {s : Str}

theorem strcaseeq_iff {t : Str} :
    strcaseeq s t = true ↔ (fold s : Segment) = (fold t : Segment) := by
  rw [strcaseeq, beq_iff_eq]
  exact Iff.rfl

theorem le_head {w : Str} {c : Byte} (hc : 97 ≤ c) (h : s.map tolower = (c :: w).map tolower) :
    ∃ d ∈ s.head?, 58 ≤ d := by
  cases s with
  | nil => cases h
  | cons d s =>
    refine ⟨d, rfl, ?_⟩
    have hd : tolower d = tolower c := (cons.inj h).1
    have hlow : tolower c = c := by
      rw [tolower, if_neg]
      rintro ⟨-, hle⟩
      exact absurd (UInt8.le_trans hc hle) (by decide)
    rw [hlow, tolower] at hd
    split at hd
    · rename_i hupper
      exact UInt8.le_trans (by decide) hupper.1
    · rw [hd]
      exact UInt8.le_trans (by decide) hc

theorem sign_snd (s : Str) :
    (sign s).2 = if s.head? = some 45 ∨ s.head? = some 43 then s.tail else s := by
  rw [sign.eq_def]
  split
  · rfl
  · rfl
  · rename_i hminus hplus
    cases s with
    | nil => rfl
    | cons c s =>
      rw [if_neg]
      rintro (h | h)
      · obtain rfl := some.inj h
        exact hminus s rfl
      · obtain rfl := some.inj h
        exact hplus s rfl

theorem strtol_letter {c : Byte} (h : 58 ≤ c) (s : Str) : strtol (c :: s) = none := by
  obtain ⟨hspace, hdigit, hminus, hplus, hzero⟩ := not_number h
  have hbase : strtolBase (c :: s) = (10, c :: s) := by
    rw [strtolBase.eq_3]
    · rintro x d s' ⟨⟩
      exact hzero rfl
    · rintro s' ⟨⟩
      exact hzero rfl
  have hsign : ¬ ((c :: s).head? = some 45 ∨ (c :: s).head? = some 43) := by
    rintro (h | h)
    · exact hminus (some.inj h)
    · exact hplus (some.inj h)
  rw [strtol, dropWhile_cons_of_neg (by simp [hspace])]
  rw [if_neg hsign, hbase]
  dsimp only
  rw [takeWhile_cons_of_neg (by simpa using hdigit), if_pos rfl]

theorem takeWhile_isdigit
    (h : ((strtolBase s).2.takeWhile fun c => digit c < (strtolBase s).1) = []) :
    s.takeWhile isdigit = [] := by
  have hdigit : (fun c => decide (digit c < 10)) = isdigit := by
    funext c
    rw [Bool.eq_iff_iff, decide_eq_true_iff]
    exact digit_lt_ten c
  unfold strtolBase at h
  split at h
  · split at h
    · rename_i hx
      rw [takeWhile_cons_of_pos (by simpa using hx.2)] at h
      cases h
    · cases h
  · cases h
  · dsimp only at h
    rwa [hdigit] at h

theorem atoi_of_strtol (h : strtol s = none) : atoi s = 0 := by
  rw [strtol] at h
  dsimp only at h
  rw [← sign_snd] at h
  split at h
  · rename_i hdigits
    rw [atoi]
    dsimp only
    rw [takeWhile_isdigit hdigits]
    split <;> rfl
  · cases h

theorem check_of_not_letter (h : ∀ c ∈ s.head?, ¬ 58 ≤ c) : check_for_bool_string s = atoi s := by
  have hword : ∀ (c : Byte) (w : Str), 97 ≤ c → strcaseeq s (c :: w) = false := by
    intro c w hc
    rw [Bool.eq_false_iff]
    intro heq
    obtain ⟨d, hd, hle⟩ := le_head hc (strcaseeq_iff.mp heq)
    exact h d hd hle
  have hno : strncasecmp s (bytes "no") 2 = false := by
    rw [Bool.eq_false_iff, strncasecmp, ne_eq, beq_iff_eq]
    intro heq
    obtain ⟨d, hd, hle⟩ := le_head (by decide) heq
    refine h d ?_ hle
    cases s with
    | nil => cases hd
    | cons => exact hd
  have hoff : strcaseeq s (bytes "off") = false := hword _ _ (by decide)
  have hfalse : strcaseeq s (bytes "false") = false := hword _ _ (by decide)
  have hon : strcaseeq s (bytes "on") = false := hword _ _ (by decide)
  have htrue : strcaseeq s (bytes "true") = false := hword _ _ (by decide)
  have hyes : strcaseeq s (bytes "yes") = false := hword _ _ (by decide)
  rw [check_for_bool_string, hoff, hfalse, hno, hon, htrue, hyes]
  rfl

theorem check_of_strtol {num : Int} (h : strtol s = some num) :
    check_for_bool_string s = atoi s := by
  apply check_of_not_letter
  intro c hc hle
  cases s with
  | nil => cases hc
  | cons d s =>
    obtain rfl := some.inj hc
    exact absurd ((strtol_letter hle s).symm.trans h) (some_ne_none _).symm

theorem check_congr {t : Str} (h : (fold s : Segment) = (fold t : Segment))
    (hatoi : atoi s = atoi t) : check_for_bool_string s = check_for_bool_string t := by
  have hmap : s.map tolower = t.map tolower := h
  have hcase : strcaseeq s = strcaseeq t := by
    funext u
    rw [strcaseeq, strcaseeq, hmap]
  have hno : strncasecmp s (bytes "no") 2 = strncasecmp t (bytes "no") 2 := by
    rw [strncasecmp, strncasecmp, map_take, hmap, ← map_take]
  rw [check_for_bool_string, check_for_bool_string, hcase, hno, hatoi]

theorem strtol_words : ∀ word ∈ truestrs ++ falsestrs, strtol word = none := by decide

theorem check_words : ∀ word ∈ truestrs ++ falsestrs,
    check_for_bool_string word = (if word ∈ truestrs then 1 else 0) ↔ word ∈ common_words := by
  decide +kernel

theorem mem_common_iff : ∀ word ∈ truestrs ++ falsestrs,
    word ∈ common_words ↔ word ≠ bytes "enabled" := by
  decide

theorem common_subset : ∀ word ∈ common_words, word ∈ truestrs ++ falsestrs := by decide

theorem check_word {value : Str} (hvalue : strtol value = none)
    (hword : (fold value : Segment) ∈ truestrs ++ falsestrs) :
    check_for_bool_string value = (if (fold value : Segment) ∈ truestrs then 1 else 0) ↔
      (fold value : Segment) ∈ common_words := by
  have hatoi : atoi value = atoi (fold value : Segment) :=
    (atoi_of_strtol hvalue).trans (atoi_of_strtol (strtol_words _ hword)).symm
  rw [check_congr (UniConfKey.fold_fold value).symm hatoi]
  exact check_words _ hword

theorem check_other {value : Str} (hvalue : strtol value = none)
    (h : (fold value : Segment) ∉ truestrs ++ falsestrs) : check_for_bool_string value = 0 := by
  have hno : ∀ word ∈ truestrs ++ falsestrs, strcaseeq value word = false := by
    intro word hword
    have hlower : ∀ word ∈ truestrs ++ falsestrs, (fold word : Segment) = word := by decide
    rw [Bool.eq_false_iff]
    intro heq
    rw [strcaseeq_iff, hlower word hword] at heq
    exact h (heq ▸ hword)
  rw [check_for_bool_string, hno (bytes "on") (by decide), hno (bytes "true") (by decide),
    hno (bytes "yes") (by decide), atoi_of_strtol hvalue]
  split <;> rfl

theorem readAlike_iff (value : Str) (defvalue : Int) :
    check_for_bool_string value = str2int (some value) defvalue ↔ ReadAlike value defvalue := by
  rw [ReadAlike, str2int]
  cases hvalue : strtol value with
  | some num =>
    rw [check_of_strtol hvalue]
    exact eq_comm
  | none =>
    by_cases hword : (fold value : Segment) ∈ truestrs ++ falsestrs
    · have hnumber : (if (fold value : Segment) ∈ truestrs then 1
          else if (fold value : Segment) ∈ falsestrs then 0 else defvalue) =
          if (fold value : Segment) ∈ truestrs then 1 else 0 := by
        rcases mem_append.mp hword with htrue | hfalse
        · rw [if_pos htrue, if_pos htrue]
        · rw [if_pos hfalse]
      rw [hnumber, check_word hvalue hword]
      constructor
      · exact Or.inl
      · rintro (hcommon | ⟨-, hne⟩)
        · exact hcommon
        · exact (mem_common_iff _ hword).mpr hne
    · rw [check_other hvalue hword, if_neg fun h => hword (mem_append_left _ h),
        if_neg fun h => hword (mem_append_right _ h)]
      constructor
      · intro hzero
        refine Or.inr ⟨hzero.symm, fun heq => hword ?_⟩
        rw [heq]
        decide
      · rintro (hcommon | ⟨hzero, -⟩)
        · exact absurd (common_subset _ hcommon) hword
        · exact hzero.symm

instance (value : Str) (defvalue : Int) : Decidable (ReadAlike value defvalue) :=
  decidable_of_iff _ (readAlike_iff value defvalue)

theorem atoi_minus {digits : Str} (hdigits : ∀ c ∈ digits, isdigit c = true)
    (hsmall : number 10 digits ≤ 2 ^ 31) : atoi (minus :: digits) = -(number 10 digits : Int) := by
  have hsign : sign (minus :: digits) = (true, digits) := rfl
  rw [atoi, dropWhile_cons_of_neg (by decide), hsign]
  dsimp only
  rw [takeWhile_eq_self_iff.mpr hdigits, if_pos rfl, Int.max_eq_left (by omega)]
  exact Int.bmod_eq_of_le (by omega) (by omega)

theorem atoi_canonical {i : Int} (h : Canonical s i) (hlow : -2 ^ 31 ≤ i) (hhigh : i < 2 ^ 31) :
    atoi s = i := by
  have hne := h.some_digit
  have hdigits := h.digits
  have hvalue := h.value
  by_cases hneg : i < 0
  · rw [if_pos hneg] at hne hdigits
    obtain ⟨c, digits, rfl⟩ :=
      exists_cons_of_ne_nil (fun hnil : s = [] => hne (by rw [hnil]; rfl))
    obtain rfl : c = minus := some.inj (h.sign.mpr hneg)
    rw [tail_cons] at hdigits
    have hnumber : -(number 10 digits : Int) = i := hvalue
    rw [atoi_minus hdigits (by omega)]
    exact hnumber
  · rw [if_neg hneg] at hne hdigits
    rw [decimal_of_digits hdigits] at hvalue
    rw [atoi_digits hne hdigits (by omega)]
    exact hvalue

theorem check_canonical {i : Int} (h : Canonical s i) (hlow : -2 ^ 31 ≤ i) (hhigh : i < 2 ^ 31) :
    check_for_bool_string s = i := by
  rw [check_of_not_letter, atoi_canonical h hlow hhigh]
  intro c hc hle
  by_cases hneg : i < 0
  · rw [h.sign.mpr hneg] at hc
    obtain rfl := some.inj hc
    exact absurd hle (by decide)
  · have hdigit := h.digits c (by rw [if_neg hneg]; exact mem_of_head? hc)
    exact (not_number hle).2.1 ((digit_lt_ten c).mpr hdigit)

theorem canonical_ofInt {i : int.Value} (h : i.val ≠ int.least) : Canonical (ofInt .int i) i := by
  obtain ⟨i, hlow, hhigh⟩ := i
  show Canonical (ofInt .int i) i
  by_cases hneg : i < 0
  · exact canonical_of_neg rfl (lt_of_le_of_ne hlow (Ne.symm h)) hneg
  · exact canonical_of_nonneg .int (by omega)

theorem check_ofInt {i : int.Value} (h : i.val ≠ int.least) :
    check_for_bool_string (ofInt .int i) = i := by
  have hcanonical := canonical_ofInt h
  obtain ⟨i, hlow, hhigh⟩ := i
  have hleast : int.least = -2 ^ 31 := rfl
  have hgreatest : int.greatest = 2 ^ 31 - 1 := rfl
  show check_for_bool_string (ofInt .int i) = i
  exact check_canonical hcanonical (by omega) (by omega)

theorem ofInt_ne_nil (i : int.Value) : ofInt .int i ≠ [] := by
  intro hnil
  by_cases hleast : i.val = int.least
  · have hminus : ofInt .int i = [minus] := by
      rw [hleast]
      exact ofInt_least rfl
    rw [hminus] at hnil
    cases hnil
  · have hdigit := (canonical_ofInt hleast).some_digit
    rw [hnil, tail_nil, ite_self] at hdigit
    exact hdigit rfl

/-- A value that both read alike, or a default that is read from its text again. -/
def AnsweredAlike (value : WvString) (def_val : int.Value) : Prop :=
  match value with
  | some value => ReadAlike value def_val
  | none => def_val.val ≠ int.least

instance : (value : WvString) → (def_val : int.Value) →
    Decidable (AnsweredAlike value def_val)
  | some value, def_val => inferInstanceAs (Decidable (ReadAlike value def_val))
  | none, def_val => inferInstanceAs (Decidable (def_val.val ≠ int.least))

theorem AnsweredAlike.eq {value : WvString} {def_val : int.Value}
    (h : AnsweredAlike value def_val) :
    check_for_bool_string ((value.or (some (ofInt .int def_val))).getD []) =
      str2int value def_val := by
  cases value with
  | none => exact check_ofInt h
  | some value => exact (readAlike_iff value def_val).mpr h

end WvStreams
