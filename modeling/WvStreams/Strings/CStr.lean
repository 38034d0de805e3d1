import WvStreams.Strings.StrUtils
import WvStreams.Strings.TclString

/-!
# C-style string constants

`cstr_escape` writes data as a string constant, and `cstr_unescape` reads any number of constants
with blanks around them. Whatever stands behind the form of a byte, that byte is read back from it
(`unescape_one_escape_one`). The bytes are counted also where there is no room for them any more.
-/

namespace WvStreams

open List

structure CStrExtraEscape where
  ch : Byte
  esc : Str
  nonempty : esc ≠ []

/-- The entries in front of the `{ 0, NULL }`. -/
def CSTR_TCLSTR_ESCAPES : List CStrExtraEscape :=
  [⟨lbrace, [backslash, 60], by decide⟩, ⟨rbrace, [backslash, 62], by decide⟩]

namespace CStr

/-- The bytes that are written as a letter behind a backslash. -/
def letters : List (Byte × Byte) :=
  [(0, 48), (7, 97), (8, 98), (9, 116), (10, 110), (11, 118), (13, 114), (quote, quote),
    (backslash, backslash)]

def hex_digit (digit : Byte) : Byte := if digit < 10 then 48 + digit else 55 + digit

/-- The table `xlat`. -/
def cstr_escape_char (ch : Byte) : Str :=
  match letters.lookup ch with
  | some letter => [backslash, letter]
  | none =>
    if 32 ≤ ch ∧ ch ≤ 126 then [ch] else [backslash, 120, hex_digit (ch / 16), hex_digit (ch % 16)]

def hex_digit_val (ch : Byte) : Option Byte :=
  if 48 ≤ ch ∧ ch ≤ 57 then some (ch - 48)
  else if 65 ≤ ch ∧ ch ≤ 70 then some (ch - 55)
  else if 97 ≤ ch ∧ ch ≤ 102 then some (ch - 87)
  else none

/-- The letters in the `switch` of `cstr_unescape_char`. -/
def unescapes : List (Byte × Byte) :=
  [(quote, quote), (116, 9), (110, 10), (backslash, backslash), (114, 13), (97, 7), (118, 11),
    (98, 8), (48, 0)]

/-- The two digits behind `\x`. -/
def unescape_hex : Str → Option (Byte × Str)
  | a :: b :: cstr => do
    let high ← hex_digit_val a
    let low ← hex_digit_val b
    some (high <<< 4 ||| low, cstr)
  | _ => none

/-- The byte that is read, and what is left of the text. -/
def cstr_unescape_char : Str → Option (Byte × Str)
  | [] => none
  | ch :: cstr =>
    if ch = backslash then
      match cstr with
      | [] => none
      | letter :: cstr =>
        if letter = 120 then unescape_hex cstr
        else (unescapes.lookup letter).map fun ch => (ch, cstr)
    else some (ch, cstr)

/-- What is written for a byte; no `extra_escapes` are an empty list. -/
def escape_one (extra_escapes : List CStrExtraEscape) (ch : Byte) : Str :=
  match extra_escapes.find? fun extra => extra.ch = ch with
  | some extra => extra.esc
  | none => cstr_escape_char ch

/-- A byte inside of a constant. -/
def unescape_one (extra_escapes : List CStrExtraEscape) (q : Str) : Option (Byte × Str) :=
  match extra_escapes.find? fun extra => extra.esc.isPrefixOf q with
  | some extra => some (extra.ch, q.drop extra.esc.length)
  | none => cstr_unescape_char q

end CStr

open CStr

/-- The text, which for `NULL` is null. -/
def cstr_escape (data : Option Str) (extra_escapes : List CStrExtraEscape) : WvString :=
  data.map fun data => quote :: data.flatMap (escape_one extra_escapes) ++ [quote]

/-- `size`, and what is stored at `data`. -/
structure Unescaped where
  size : Nat := 0
  data : Str := []
  deriving DecidableEq

namespace CStr

variable (extra_escapes : List CStrExtraEscape) (has_data : Bool) (max_size : Nat)

def store (r : Unescaped) (unesc : Byte) : Unescaped where
  size := r.size + 1
  data := if r.size < max_size ∧ has_data then r.data ++ [unesc] else r.data

/-- The loop inside of a constant, and what is left behind its closing quotation mark; none if it
is misformatted. Each round reads some bytes, so there are no more rounds than bytes. -/
def quotedLoop : Nat → Str → Unescaped → Unescaped × Option Str
  | 0, _, r => (r, none)
  | rounds + 1, q, r =>
    if q = [] then (r, none)
    else if q.head? = some quote then (r, some q.tail)
    else
      match unescape_one extra_escapes q with
      | none => (r, none)
      | some (unesc, q) => quotedLoop rounds q (store has_data max_size r unesc)

/-- The loop over the constants, and whether they are well-formatted. -/
def constantsLoop : Nat → Str → Unescaped → Unescaped × Bool
  | 0, _, r => (r, false)
  | rounds + 1, q, r =>
    match q.dropWhile isspace with
    | [] => (r, true)
    | c :: q =>
      if c ≠ quote then (r, false)
      else
        match quotedLoop extra_escapes has_data max_size q.length q r with
        | (r, none) => (r, false)
        | (r, some q) => constantsLoop rounds q r

end CStr

/-- The return value with what is stored; `has_data` says that `data` is not `NULL`. -/
def cstr_unescape (cstr : WvString) (has_data : Bool) (max_size : Nat)
    (extra_escapes : List CStrExtraEscape) : Bool × Unescaped :=
  match cstr with
  | none => (false, {})
  | some q =>
    match constantsLoop extra_escapes has_data max_size (q.length + 1) q {} with
    | (r, true) => (r.size ≤ max_size, r)
    | (r, false) => (false, { r with size := 0 })

namespace CStr

theorem hex_digit_val_hex_digit {digit : Byte} (h : digit < 16) :
    hex_digit_val (hex_digit digit) = some digit := by
  have hall : ∀ n < 16, hex_digit_val (hex_digit (UInt8.ofNat n)) = some (UInt8.ofNat n) := by
    decide
  have hn := hall digit.toNat (UInt8.lt_iff_toNat_lt.mp h)
  rwa [UInt8.ofNat_toNat] at hn

theorem shift_or_digits (ch : Byte) : (ch / 16) <<< 4 ||| ch % 16 = ch := by
  have hall : ∀ n < 256, (UInt8.ofNat n / 16) <<< 4 ||| UInt8.ofNat n % 16 = UInt8.ofNat n := by
    decide +kernel
  have hn := hall ch.toNat ch.toNat_lt
  rwa [UInt8.ofNat_toNat] at hn

theorem unescape_hex_digits (ch : Byte) (rest : Str) :
    unescape_hex (hex_digit (ch / 16) :: hex_digit (ch % 16) :: rest) = some (ch, rest) := by
  have hhigh : ch / 16 < 16 := by
    rw [UInt8.lt_iff_toNat_lt, UInt8.toNat_div]
    have hlt := ch.toNat_lt
    show ch.toNat / 16 < 16
    omega
  have hlow : ch % 16 < 16 := by
    rw [UInt8.lt_iff_toNat_lt, UInt8.toNat_mod]
    exact Nat.mod_lt _ (by decide)
  simp only [unescape_hex, hex_digit_val_hex_digit hhigh, hex_digit_val_hex_digit hlow]
  exact congrArg (fun ch => some (ch, rest)) (shift_or_digits ch)

theorem unescapes_of_letters : ∀ p ∈ letters, unescapes.lookup p.2 = some p.1 ∧
    p.2 ∉ ([120, 60, 62] : Str) := by decide

theorem mem_of_lookup {α β : Type} [BEq α] [LawfulBEq α] {l : List (α × β)} {a : α} {b : β}
    (h : l.lookup a = some b) : (a, b) ∈ l := by
  obtain ⟨front, back, hl, -⟩ := lookup_eq_some_iff.mp h
  rw [hl]
  exact mem_append_right _ mem_cons_self

theorem cstr_escape_char_cases (ch : Byte) :
    (∃ letter, (ch, letter) ∈ letters ∧ cstr_escape_char ch = [backslash, letter]) ∨
      (ch ≠ backslash ∧ ch ≠ quote ∧ cstr_escape_char ch = [ch]) ∨
      cstr_escape_char ch = [backslash, 120, hex_digit (ch / 16), hex_digit (ch % 16)] := by
  rw [cstr_escape_char]
  cases hletter : letters.lookup ch with
  | some letter => exact Or.inl ⟨letter, mem_of_lookup hletter, rfl⟩
  | none =>
    right
    dsimp only
    split
    · refine Or.inl ⟨?_, ?_, rfl⟩
      · rintro rfl
        cases hletter
      · rintro rfl
        cases hletter
    · exact Or.inr rfl

theorem cstr_unescape_char_escape (ch : Byte) (rest : Str) :
    cstr_unescape_char (cstr_escape_char ch ++ rest) = some (ch, rest) := by
  rcases cstr_escape_char_cases ch with ⟨letter, hletter, hform⟩ | ⟨hch, -, hform⟩ | hform
  · obtain ⟨hlookup, hother⟩ := unescapes_of_letters _ hletter
    have hne : letter ≠ 120 := fun h => hother (h ▸ mem_cons_self)
    rw [hform]
    show (if letter = 120 then _ else _) = _
    rw [if_neg hne, hlookup]
    rfl
  · rw [hform]
    show (if ch = backslash then _ else _) = _
    rw [if_neg hch]
    rfl
  · rw [hform]
    exact unescape_hex_digits ch rest

/-- Every byte is read back, whatever follows, and no form begins with a quotation mark. -/
structure Faithful (extra_escapes : List CStrExtraEscape) : Prop where
  unescape : ∀ ch rest, unescape_one extra_escapes (escape_one extra_escapes ch ++ rest) =
    some (ch, rest)
  head : ∀ ch, ∃ c form, escape_one extra_escapes ch = c :: form ∧ c ≠ quote

theorem head_cstr_escape_char (ch : Byte) :
    ∃ c form, cstr_escape_char ch = c :: form ∧ c ≠ quote := by
  rcases cstr_escape_char_cases ch with ⟨letter, -, hform⟩ | ⟨-, hch, hform⟩ | hform
  · exact ⟨_, _, hform, by decide⟩
  · exact ⟨_, _, hform, hch⟩
  · exact ⟨_, _, hform, by decide⟩

theorem faithful_nil : Faithful [] := ⟨cstr_unescape_char_escape, head_cstr_escape_char⟩

theorem not_isPrefixOf_escape {c : Byte} (hc : c = 60 ∨ c = 62) (ch : Byte) (rest : Str) :
    [backslash, c].isPrefixOf (cstr_escape_char ch ++ rest) = false := by
  rcases cstr_escape_char_cases ch with ⟨letter, hletter, hform⟩ | ⟨hch, -, hform⟩ | hform
  · have hother := (unescapes_of_letters _ hletter).2
    have hne : c ≠ letter := by
      rintro rfl
      rcases hc with rfl | rfl <;> exact hother (by simp)
    simp [hform, isPrefixOf, hne]
  · simp [hform, isPrefixOf, Ne.symm hch]
  · rcases hc with rfl | rfl <;> simp [hform, isPrefixOf]

theorem faithful_tclstr : Faithful CSTR_TCLSTR_ESCAPES := by
  have hfind : ∀ ch, ch ≠ lbrace → ch ≠ rbrace →
      escape_one CSTR_TCLSTR_ESCAPES ch = cstr_escape_char ch := by
    intro ch hl hr
    simp [escape_one, CSTR_TCLSTR_ESCAPES, Ne.symm hl, Ne.symm hr]
  constructor
  · intro ch rest
    by_cases hl : ch = lbrace
    · rw [hl]
      rfl
    by_cases hr : ch = rbrace
    · rw [hr]
      rfl
    rw [hfind ch hl hr, unescape_one, CSTR_TCLSTR_ESCAPES,
      find?_cons_of_neg (by simp [not_isPrefixOf_escape (Or.inl rfl)]),
      find?_cons_of_neg (by simp [not_isPrefixOf_escape (Or.inr rfl)])]
    exact cstr_unescape_char_escape ch rest
  · intro ch
    by_cases hl : ch = lbrace
    · exact ⟨backslash, [60], hl ▸ rfl, by decide⟩
    by_cases hr : ch = rbrace
    · exact ⟨backslash, [62], hr ▸ rfl, by decide⟩
    rw [hfind ch hl hr]
    exact head_cstr_escape_char ch

def stored (has_data : Bool) (max_size : Nat) (all : Str) : Unescaped where
  size := all.length
  data := if has_data then all.take max_size else []

theorem store_stored (has_data : Bool) (max_size : Nat) (all : Str) (ch : Byte) :
    store has_data max_size (stored has_data max_size all) ch =
      stored has_data max_size (all ++ [ch]) := by
  cases has_data with
  | false => simp [store, stored]
  | true =>
    by_cases hlt : all.length < max_size
    · simp [store, stored, hlt, take_of_length_le (Nat.le_of_lt hlt),
        take_of_length_le (show (all ++ [ch]).length ≤ max_size by simp; omega)]
    · have hle : max_size ≤ all.length := Nat.le_of_not_lt hlt
      simp [store, stored, hlt, take_append_of_le_length hle]

abbrev Blank := { s : Str // ∀ c ∈ s, isspace c = true }

def joined (extra_escapes : List CStrExtraEscape) (pieces : List (Blank × Str))
    (trailing : Blank) : Str :=
  (pieces.flatMap fun piece => piece.1.1 ++ (cstr_escape (some piece.2) extra_escapes).getD []) ++
    trailing.1

section Loops

variable {extra_escapes : List CStrExtraEscape} (h : Faithful extra_escapes) (has_data : Bool)
  (max_size : Nat)

include h

theorem quotedLoop_escaped (data rest all : Str) {rounds : Nat}
    (hrounds : (data.flatMap (escape_one extra_escapes)).length < rounds) :
    quotedLoop extra_escapes has_data max_size rounds
      (data.flatMap (escape_one extra_escapes) ++ quote :: rest) (stored has_data max_size all) =
        (stored has_data max_size (all ++ data), some rest) := by
  induction data generalizing all rounds with
  | nil =>
    obtain ⟨rounds, rfl⟩ := Nat.exists_eq_add_one_of_ne_zero (Nat.ne_of_gt hrounds)
    rw [append_nil]
    rfl
  | cons ch data ih =>
    obtain ⟨rounds, rfl⟩ :=
      Nat.exists_eq_add_one_of_ne_zero (Nat.ne_of_gt (Nat.zero_lt_of_lt hrounds))
    obtain ⟨c, form, hform, hc⟩ := h.head ch
    rw [flatMap_cons] at hrounds ⊢
    rw [append_assoc, quotedLoop, h.unescape]
    have hne : escape_one extra_escapes ch ++
        (data.flatMap (escape_one extra_escapes) ++ quote :: rest) ≠ [] := by simp [hform]
    have hquote : (escape_one extra_escapes ch ++
        (data.flatMap (escape_one extra_escapes) ++ quote :: rest)).head? ≠ some quote := by
      simp [hform, hc]
    rw [if_neg hne, if_neg hquote]
    dsimp only
    rw [store_stored, ih, append_assoc, singleton_append]
    rw [hform] at hrounds
    simp only [length_append, length_cons] at hrounds
    omega

theorem constantsLoop_joined (pieces : List (Blank × Str)) (trailing : Blank) (all : Str)
    {rounds : Nat} (hrounds : (joined extra_escapes pieces trailing).length < rounds) :
    constantsLoop extra_escapes has_data max_size rounds (joined extra_escapes pieces trailing)
      (stored has_data max_size all) =
        (stored has_data max_size (all ++ pieces.flatMap (·.2)), true) := by
  induction pieces generalizing all rounds with
  | nil =>
    obtain ⟨rounds, rfl⟩ :=
      Nat.exists_eq_add_one_of_ne_zero (Nat.ne_of_gt (Nat.zero_lt_of_lt hrounds))
    have hdrop : trailing.1.dropWhile isspace = [] := dropWhile_eq_nil_iff.mpr trailing.2
    rw [joined, flatMap_nil, nil_append, constantsLoop, hdrop, flatMap_nil, append_nil]
  | cons piece pieces ih =>
    obtain ⟨blank, data⟩ := piece
    obtain ⟨rounds, rfl⟩ :=
      Nat.exists_eq_add_one_of_ne_zero (Nat.ne_of_gt (Nat.zero_lt_of_lt hrounds))
    have htext : joined extra_escapes ((blank, data) :: pieces) trailing =
        blank.1 ++ quote :: (data.flatMap (escape_one extra_escapes) ++
          quote :: joined extra_escapes pieces trailing) := by
      simp [joined, cstr_escape]
    have hdrop : ∀ rest, (blank.1 ++ quote :: rest).dropWhile isspace = quote :: rest := by
      intro rest
      rw [dropWhile_append_of_pos blank.2]
      rfl
    rw [htext] at hrounds ⊢
    rw [constantsLoop, hdrop]
    simp only [ne_eq, not_true_eq_false, if_false]
    rw [quotedLoop_escaped h]
    · dsimp only
      rw [ih, flatMap_cons, append_assoc]
      simp only [length_append, length_cons] at hrounds
      omega
    · simp only [length_append, length_cons]
      omega

end Loops

/-- The flags of the two functions. -/
def escapes (tclstr : Bool) : List CStrExtraEscape := if tclstr then CSTR_TCLSTR_ESCAPES else []

theorem faithful_escapes (tclstr : Bool) : Faithful (escapes tclstr) := by
  cases tclstr with
  | false => exact faithful_nil
  | true => exact faithful_tclstr

theorem escape_one_fits (tclstr : Bool) (ch : Byte) :
    (0 : Byte) ∉ escape_one (escapes tclstr) ch ∧ (escape_one (escapes tclstr) ch).length ≤ 4 := by
  have hall : ∀ tclstr, ∀ n < 256, (0 : Byte) ∉ escape_one (escapes tclstr) (UInt8.ofNat n) ∧
      (escape_one (escapes tclstr) (UInt8.ofNat n)).length ≤ 4 := by
    decide +kernel
  have hn := hall tclstr ch.toNat ch.toNat_lt
  rwa [UInt8.ofNat_toNat] at hn

theorem zero_notMem_joined (tclstr : Bool) (pieces : List (Blank × Str)) (trailing : Blank) :
    (0 : Byte) ∉ joined (escapes tclstr) pieces trailing := by
  have hblank : ∀ blank : Blank, (0 : Byte) ∉ blank.1 := fun blank hmem =>
    absurd (blank.2 0 hmem) (by decide)
  have hquote : (0 : Byte) ≠ quote := by decide
  intro hmem
  rcases mem_append.mp hmem with hmem | hmem
  · obtain ⟨⟨blank, data⟩, -, hmem⟩ := mem_flatMap.mp hmem
    rcases mem_append.mp hmem with hmem | hmem
    · exact hblank _ hmem
    · have hform : ∃ ch ∈ data, (0 : Byte) ∈ escape_one (escapes tclstr) ch := by
        simpa [cstr_escape, hquote] using hmem
      obtain ⟨ch, -, hmem⟩ := hform
      exact (escape_one_fits tclstr ch).1 hmem
  · exact hblank _ hmem

end CStr

/-- The constants are read back to the bytes that were written, of which a buffer that is too
small gets the first ones; `joined` is a C string. -/
theorem cstr_unescape_cstr_escape (tclstr : Bool) (pieces : List (Blank × Str)) (trailing : Blank)
    (has_data : Bool) (max_size : Nat) :
    let text := joined (escapes tclstr) pieces trailing
    let total := pieces.flatMap (·.2)
    (0 : Byte) ∉ text ∧ cstr_unescape (some text) has_data max_size (escapes tclstr) =
        (decide (total.length ≤ max_size),
          ⟨total.length, if has_data then total.take max_size else []⟩) := by
  refine ⟨zero_notMem_joined tclstr pieces trailing, ?_⟩
  have hloop := constantsLoop_joined (faithful_escapes tclstr) has_data max_size pieces trailing []
    (Nat.lt_succ_self _)
  have hempty : stored has_data max_size [] = {} := by simp [stored]
  rw [hempty, nil_append] at hloop
  simp only [cstr_unescape, hloop, stored]

end WvStreams
