import WvStreams.Strings.Format

/-!
# URL encoding

`url_encode` writes each character as it is or as `%` with two digits, and `url_decode` reads that
back. Before that it takes the blanks off both ends of its text, and unless `no_space` is set each
`+` becomes a blank. In the default class no blank and no `+` is left as it is, so the text comes
back. With a list of unsafe characters it does when the blanks at its ends and the plus signs are in
the list (`url_decode_encode_iff`).
-/

namespace WvStreams

open List

def plus : Byte := 43

/-- The digits in `url_decode`, which are those of `%X`. -/
def hexDigits : Str := bytes "0123456789ABCDEF"

/-- `toupper` in the C locale. -/
def toupper (c : Byte) : Byte := if 97 ≤ c ∧ c ≤ 122 then c - 32 else c

/-- `isalnum` in the C locale. -/
def isalnum (c : Byte) : Bool := isalpha c || isdigit c

namespace Url

/-- The place of a digit in `hexDigits`, in either case. -/
def hexIndex (c : Byte) : Option Nat := hexDigits.idxOf? (toupper c)

def decodeLoop (no_space : Bool) : Str → Str
  | [] => []
  | 37 :: a :: b :: rest =>
    -- where one of the two is no digit, all three are dropped
    match hexIndex a, hexIndex b with
    | some i, some j => UInt8.ofNat (i <<< 4 ||| j) :: decodeLoop no_space rest
    | _, _ => decodeLoop no_space rest
  | c :: rest => (if c == plus && !no_space then 32 else c) :: decodeLoop no_space rest

def escape (c : Byte) : Str :=
  [percent, hexDigits.getD (c.toNat / 16) 0, hexDigits.getD (c.toNat % 16) 0]

def isPlain (unsafe_ : WvString) (c : Byte) : Bool :=
  (if unsafe_.not then isalnum c || (bytes "_.!~*'()-").contains c
    else !(unsafe_.getD []).contains c) && c != percent

def encodeChar (unsafe_ : WvString) (c : Byte) : Str := if isPlain unsafe_ c then [c] else escape c

end Url

open Url

def url_encode (str : WvString) (unsafe_ : WvString := some []) : Str :=
  (str.getD []).flatMap (encodeChar unsafe_)

def url_decode (str : WvString) (no_space : Bool := false) : WvString :=
  if str.not then str else some (decodeLoop no_space (trimString (str.getD [])))

namespace Url

theorem hexIndex_digit : ∀ i < 16, hexIndex (hexDigits.getD i 0) = some i := by decide

theorem isspace_digit : ∀ i < 16, isspace (hexDigits.getD i 0) = false := by decide

theorem decodeLoop_escape (no_space : Bool) (c : Byte) (rest : Str) :
    decodeLoop no_space (escape c ++ rest) = c :: decodeLoop no_space rest := by
  have hlt : c.toNat < 256 := c.toNat_lt
  have hlow : c.toNat % 16 < 2 ^ 4 := by omega
  have hbyte : UInt8.ofNat ((c.toNat / 16) <<< 4 ||| c.toNat % 16) = c := by
    rw [← Nat.shiftLeft_add_eq_or_of_lt hlow, Nat.shiftLeft_eq, Nat.div_add_mod' c.toNat 16]
    exact UInt8.ofNat_toNat
  change decodeLoop no_space (37 :: _ :: _ :: rest) = _
  rw [decodeLoop, hexIndex_digit _ (by omega), hexIndex_digit _ (by omega)]
  simp only [hbyte]

theorem decodeLoop_cons (no_space : Bool) {c : Byte} (hc : c ≠ percent) (rest : Str) :
    decodeLoop no_space (c :: rest) =
      (if c == plus && !no_space then 32 else c) :: decodeLoop no_space rest := by
  rw [decodeLoop]
  rintro a b tail rfl
  exact absurd rfl hc

/-- What becomes of a character. -/
def comesBack (unsafe_ : WvString) (no_space : Bool) (c : Byte) : Byte :=
  if isPlain unsafe_ c && c == plus && !no_space then 32 else c

theorem decodeLoop_encode (unsafe_ : WvString) (no_space : Bool) (s : Str) :
    decodeLoop no_space (s.flatMap (encodeChar unsafe_)) = s.map (comesBack unsafe_ no_space) := by
  induction s with
  | nil => rfl
  | cons c s ih =>
    rw [flatMap_cons, map_cons, encodeChar, comesBack]
    by_cases hplain : isPlain unsafe_ c = true
    · have hc : c ≠ percent := by
        rw [isPlain, Bool.and_eq_true, bne_iff_ne] at hplain
        exact hplain.2
      rw [if_pos hplain, singleton_append, decodeLoop_cons no_space hc, ih, hplain, Bool.true_and]
    · rw [if_neg hplain, decodeLoop_escape, ih]
      simp [hplain]

def isBare (unsafe_ : WvString) (c : Byte) : Bool := isPlain unsafe_ c && isspace c

theorem dropWhile_encode (unsafe_ : WvString) (s : Str) :
    (s.flatMap (encodeChar unsafe_)).dropWhile isspace =
      (s.dropWhile (isBare unsafe_)).flatMap (encodeChar unsafe_) := by
  induction s with
  | nil => rfl
  | cons c s ih =>
    rw [flatMap_cons, dropWhile_cons, isBare]
    cases hplain : isPlain unsafe_ c with
    | false =>
      have hescape : encodeChar unsafe_ c = escape c := by simp [encodeChar, hplain]
      rw [hescape, Bool.false_and, if_neg (by simp), flatMap_cons, hescape]
      rfl
    | true =>
      have hchar : encodeChar unsafe_ c = [c] := by simp [encodeChar, hplain]
      rw [hchar, singleton_append, dropWhile_cons, Bool.true_and]
      by_cases hspace : isspace c = true
      · rw [if_pos hspace, if_pos hspace, ih]
      · rw [if_neg hspace, if_neg hspace, flatMap_cons, hchar, singleton_append]

theorem rdropWhile_encode (unsafe_ : WvString) (s : Str) :
    trimEnd (s.flatMap (encodeChar unsafe_)) =
      (s.rdropWhile (isBare unsafe_)).flatMap (encodeChar unsafe_) := by
  induction s using reverseRecOn with
  | nil => rfl
  | append_singleton s c ih =>
    rw [flatMap_append, flatMap_singleton]
    cases hplain : isPlain unsafe_ c with
    | false =>
      have hescape : encodeChar unsafe_ c = escape c := by simp [encodeChar, hplain]
      have hbare : ¬ isBare unsafe_ c = true := by simp [isBare, hplain]
      rw [hescape, rdropWhile_concat_neg _ _ _ hbare, flatMap_append, flatMap_singleton, hescape]
      apply trimEnd_eq_self
      intro d hd
      have hlast : d = hexDigits.getD (c.toNat % 16) 0 := by
        simpa [escape, eq_comm] using hd
      rw [hlast]
      exact isspace_digit _ (by omega)
    | true =>
      have hchar : encodeChar unsafe_ c = [c] := by simp [encodeChar, hplain]
      rw [hchar]
      by_cases hspace : isspace c = true
      · rw [trimEnd, rdropWhile_concat_pos _ _ _ hspace, ← trimEnd, ih,
          rdropWhile_concat_pos _ _ _ (by simp [isBare, hplain, hspace])]
      · rw [trimEnd, rdropWhile_concat_neg _ _ _ hspace,
          rdropWhile_concat_neg _ _ _ (by simp [isBare, hspace]), flatMap_append,
          flatMap_singleton, hchar]

def trimBare (unsafe_ : WvString) (s : Str) : Str :=
  (s.rdropWhile (isBare unsafe_)).dropWhile (isBare unsafe_)

theorem trimString_encode (unsafe_ : WvString) (s : Str) :
    trimString (s.flatMap (encodeChar unsafe_)) =
      (trimBare unsafe_ s).flatMap (encodeChar unsafe_) := by
  rw [trimString, rdropWhile_encode, dropWhile_encode, trimBare]

/-- The blanks at the ends are in the list. -/
def EndsKept (unsafe_ : WvString) (s : Str) : Prop :=
  (∀ c ∈ s.head?, isBare unsafe_ c = false) ∧ ∀ c ∈ s.getLast?, isBare unsafe_ c = false

theorem trimBare_length_le (unsafe_ : WvString) (s : Str) :
    (trimBare unsafe_ s).length ≤ (s.rdropWhile (isBare unsafe_)).length :=
  (dropWhile_sublist _).length_le

variable {unsafe_ : WvString}

theorem trimBare_eq_self {s : Str} (h : EndsKept unsafe_ s) : trimBare unsafe_ s = s := by
  obtain ⟨hfirst, hlast⟩ := h
  have hr : s.rdropWhile (isBare unsafe_) = s := by
    rw [rdropWhile_eq_self_iff]
    intro hne
    simp [hlast _ (getLast?_eq_getLast_of_ne_nil hne)]
  rw [trimBare, hr]
  cases s with
  | nil => rfl
  | cons c s => exact dropWhile_cons_of_neg (by simp [hfirst c rfl])

theorem trimBare_eq_iff (unsafe_ : WvString) (s : Str) :
    (trimBare unsafe_ s).length = s.length ↔ EndsKept unsafe_ s := by
  constructor
  · intro h
    have hle := trimBare_length_le unsafe_ s
    have hlast : s.rdropWhile (isBare unsafe_) = s := by
      apply (List.rdropWhile_prefix (isBare unsafe_) s).eq_of_length_le
      omega
    have hfirst : s.dropWhile (isBare unsafe_) = s := by
      apply (dropWhile_sublist _).eq_of_length_le
      rw [trimBare, hlast] at h
      omega
    constructor
    · intro c hc
      cases s with
      | nil => cases hc
      | cons d s =>
        cases hc
        exact Bool.eq_false_iff.mpr (dropWhile_eq_self_iff.mp hfirst (by simp))
    · intro c hc
      have hne : s ≠ [] := by
        rintro rfl
        cases hc
      have hneg := rdropWhile_eq_self_iff.mp hlast hne
      rw [getLast?_eq_getLast_of_ne_nil hne, Option.mem_some_iff] at hc
      simpa [hc] using hneg
  · intro h
    rw [trimBare_eq_self h]

theorem url_decode_encode (s : Str) (unsafe_ : WvString) (no_space : Bool) :
    url_decode (some (url_encode (some s) unsafe_)) no_space =
      some ((trimBare unsafe_ s).map (comesBack unsafe_ no_space)) := by
  rw [url_decode, url_encode]
  cases s with
  | nil => rfl
  | cons c s =>
    have hne : ((c :: s).flatMap (encodeChar unsafe_)) ≠ [] := by
      rw [flatMap_cons, encodeChar]
      split <;> simp [escape]
    rw [if_neg (by simpa using hne)]
    simp only [Option.getD_some]
    rw [trimString_encode, decodeLoop_encode]

theorem map_comesBack_iff (unsafe_ : WvString) (no_space : Bool) (s : Str) :
    s.map (comesBack unsafe_ no_space) = s ↔
      no_space = true ∨ (plus ∈ s → isPlain unsafe_ plus = false) := by
  have hself : s.map (comesBack unsafe_ no_space) = s ↔
      ∀ c ∈ s, comesBack unsafe_ no_space c = c := by
    constructor
    · intro h c hc
      exact (map_inj_left (g := id)).mp (h.trans (map_id s).symm) c hc
    · intro h
      exact (map_congr_left h).trans (map_id s)
  rw [hself]
  cases no_space with
  | true => simp [comesBack]
  | false =>
    simp only [comesBack, Bool.not_false, Bool.and_true, Bool.false_eq_true, false_or]
    constructor
    · intro h hplus
      have hc := h plus hplus
      cases hplain : isPlain unsafe_ plus with
      | false => rfl
      | true =>
        rw [hplain] at hc
        exact absurd hc (by decide)
    · intro h c hc
      by_cases hcp : c = plus
      · subst hcp
        simp [h hc]
      · simp [hcp]

theorem mem_of_isspace {c : Byte} (h : isspace c = true) : c ∈ ([9, 10, 11, 12, 13, 32] : Str) := by
  simp only [isspace, Bool.or_eq_true, beq_iff_eq, Bool.and_eq_true, decide_eq_true_eq,
    UInt8.le_iff_toNat_le, ← UInt8.toNat_inj, UInt8.reduceToNat] at h
  simp only [mem_cons, ← UInt8.toNat_inj, UInt8.reduceToNat, not_mem_nil, or_false]
  omega

theorem plain_default (h : unsafe_.not = true) {c : Byte} (hc : isspace c = true ∨ c = plus) :
    isPlain unsafe_ c = false := by
  have hmem : c ∈ ([9, 10, 11, 12, 13, 32, plus] : Str) := by
    rcases hc with hc | rfl
    · exact mem_append_left [plus] (mem_of_isspace hc)
    · simp
  have hclass : ∀ d ∈ ([9, 10, 11, 12, 13, 32, plus] : Str),
      (isalnum d || (bytes "_.!~*'()-").contains d) = false := by decide
  rw [isPlain, if_pos h, hclass c hmem, Bool.false_and]

theorem plain_list (h : ¬ unsafe_.not = true) {c : Byte} (hc : c ≠ percent) :
    isPlain unsafe_ c = false ↔ c ∈ unsafe_.getD [] := by
  simp [isPlain, h, hc]

theorem bare_list (h : ¬ unsafe_.not = true) (c : Byte) :
    isBare unsafe_ c = false ↔ (isspace c = true → c ∈ unsafe_.getD []) := by
  rw [isBare]
  cases hspace : isspace c with
  | false => simp
  | true =>
    have hc : c ≠ percent := by
      rintro rfl
      exact absurd hspace (by decide)
    simpa using plain_list h hc

/-- When a text comes back from its encoding. -/
theorem url_decode_encode_iff (s : Str) (unsafe_ : WvString) (no_space : Bool) :
    url_decode (some (url_encode (some s) unsafe_)) no_space = some s ↔ unsafe_.not = true ∨
        (∀ c, s.head? = some c ∨ s.getLast? = some c → isspace c = true → c ∈ unsafe_.getD []) ∧
          (no_space = true ∨ (plus ∈ s → plus ∈ unsafe_.getD [])) := by
  rw [url_decode_encode, Option.some_inj]
  have hsplit : (trimBare unsafe_ s).map (comesBack unsafe_ no_space) = s ↔
      EndsKept unsafe_ s ∧ (no_space = true ∨ (plus ∈ s → isPlain unsafe_ plus = false)) := by
    rw [← map_comesBack_iff]
    constructor
    · intro h
      have hends : EndsKept unsafe_ s := by
        rw [← trimBare_eq_iff]
        simpa using congrArg length h
      rw [trimBare_eq_self hends] at h
      exact ⟨hends, h⟩
    · rintro ⟨hends, h⟩
      rw [trimBare_eq_self hends, h]
  rw [hsplit]
  by_cases hdefault : unsafe_.not = true
  · have hbare : ∀ c, isBare unsafe_ c = false := by
      intro c
      rw [isBare]
      cases hspace : isspace c with
      | false => simp
      | true => simp [plain_default hdefault (Or.inl hspace)]
    simp [hdefault, EndsKept, hbare, plain_default hdefault (Or.inr rfl)]
  · have hplus : isPlain unsafe_ plus = false ↔ plus ∈ unsafe_.getD [] :=
      plain_list hdefault (by decide)
    simp only [hdefault, EndsKept, bare_list hdefault, hplus, Bool.false_eq_true, false_or,
      Option.mem_def]
    constructor
    · rintro ⟨⟨hfirst, hlast⟩, h⟩
      exact ⟨fun c hc => hc.elim (hfirst c) (hlast c), h⟩
    · rintro ⟨hends, h⟩
      exact ⟨⟨fun c hc => hends c (Or.inl hc), fun c hc => hends c (Or.inr hc)⟩, h⟩

/-- A blank in front that is not in the list is lost. -/
theorem not_url_decode_encode :
    ¬ ∀ (s : Str) (unsafe_ : WvString) (no_space : Bool),
      url_decode (some (url_encode (some s) unsafe_)) no_space = some s := by
  intro h
  exact absurd (h (bytes " a") (some (bytes "/")) true) (by decide)

end Url

end WvStreams
