import WvStreams.IPStreams.AddrEquality
import WvStreams.Strings.Integer

/-!
# Addresses as strings

What `printable` writes is read by `string_init`, which looks for the separators and takes the
number in front of each. A network of 32 bits is written without its mask, and the port 0 is not
looked up in the table of services.
-/

namespace WvStreams

open Lib List CStr WvFastString
open WvFastString (ofInt)

structure WvEtherAddr where
  binaddr : Fin 6 → BitVec 8

namespace WvEtherAddr

def hexDigit (n : Nat) : Byte := UInt8.ofNat (if n < 10 then 48 + n else 55 + n)

/-- `sprintf` with `%02X`. -/
def sprintf_02X (c : BitVec 8) : Str := [hexDigit (c.toNat / 16), hexDigit (c.toNat % 16)]

/-- The loop of `string_init`, with the string from `endptr` on. That is where the whole string
begins if it has its length. -/
def initLoop (string : Str) : Nat → Str → List (BitVec 8)
  | 0, _ => []
  | count + 1, s =>
    let endptr := strtoul_end s
    BitVec.ofNat 8 (strtoul s) ::
      if endptr = [] ∨ endptr.length = string.length then [] else initLoop string count endptr.tail

def ofString (string : Str) : WvEtherAddr := ⟨fun i => (initLoop string 6 string).getD i 0⟩

def text (cs : List (BitVec 8)) : Str := [58].intercalate (cs.map sprintf_02X)

def printable (a : WvEtherAddr) : Str := text (List.ofFn a.binaddr)

end WvEtherAddr

namespace WvIPAddr

def initLoop : Nat → Str → List (BitVec 8)
  | 0, _ => []
  | count + 1, iptr =>
    BitVec.ofInt 8 (strtol_10 iptr) ::
      match CStr.strchr iptr 46 with
      | some nptr => initLoop count nptr.tail
      | none => []

def ofString (string : Str) : WvIPAddr := ⟨fun i => (initLoop 4 string).getD i 0⟩

def printable (a : WvIPAddr) : Str :=
  [46].intercalate (List.ofFn fun i => ofInt .int (a.binaddr i).toNat)

end WvIPAddr

namespace WvIPNet

/-- The mask that `string_init` makes. A shift by a negative amount has no value. -/
def maskOfString (string : Str) : Option WvIPAddr :=
  match CStr.strchr string 47 with
  | none => some (.ofString (bytes "255.255.255.255"))
  | some maskptr =>
    if 46 ∈ maskptr.tail then some (.ofString maskptr.tail)
    else
      let bits := atoi maskptr.tail
      if bits > 32 then none else some (.ofHost (imask bits.toNat))

def ofString (string : Str) : Option WvIPNet :=
  (maskOfString string).map fun mask => ⟨.ofString string, mask⟩

def printable (n : WvIPNet) : Str :=
  if n.bits < 32 then n.network.printable ++ 47 :: ofInt .int n.bits else n.toWvIPAddr.printable

end WvIPNet

namespace WvIPPortAddr

def all_digits (s : Str) : Bool := s.all isdigit

/-- `string_init`; `getservbyname` is the port of a service, if there is such a service. -/
def ofString (getservbyname : Str → Option (BitVec 16)) (string : Str) : WvIPPortAddr :=
  if all_digits string then ⟨default, BitVec.ofInt 16 (atoi string)⟩
  else
    let cptr := ((CStr.strchr string 58).or (CStr.strchr string 32)).or (CStr.strchr string 9)
    match cptr with
    | none => ⟨.ofString string, 0⟩
    | some cptr =>
      if cptr.tail = bytes "0" then ⟨.ofString string, 0⟩
      else
        let port := BitVec.ofInt 16 (atoi cptr.tail)
        ⟨.ofString string, if port = 0 then (getservbyname cptr.tail).getD port else port⟩

def printable (a : WvIPPortAddr) : Str :=
  a.toWvIPAddr.printable ++ 58 :: ofInt .unsigned_short a.port.toNat

end WvIPPortAddr

namespace WvEtherAddr

theorem hexDigit_spec {n : Nat} (h : n < 16) :
    isxdigit (hexDigit n) = true ∧ ((hex_digit_val (hexDigit n)).getD 0).toNat = n := by
  have hall : ∀ n < 16, isxdigit (hexDigit n) = true ∧
      ((hex_digit_val (hexDigit n)).getD 0).toNat = n := by decide
  exact hall n h

theorem sprintf_spec (c : BitVec 8) :
    (∀ x ∈ sprintf_02X c, isxdigit x = true) ∧ number 16 (sprintf_02X c) = c.toNat := by
  have hc := c.isLt
  obtain ⟨hhigh, hhigh'⟩ := hexDigit_spec (n := c.toNat / 16) (by omega)
  obtain ⟨hlow, hlow'⟩ := hexDigit_spec (n := c.toNat % 16) (by omega)
  refine ⟨by simp [sprintf_02X, hhigh, hlow], ?_⟩
  simp only [sprintf_02X, number, foldl_cons, foldl_nil, hhigh', hlow']
  omega

theorem text_cons_cons (c d : BitVec 8) (cs : List (BitVec 8)) :
    text (c :: d :: cs) = sprintf_02X c ++ 58 :: text (d :: cs) := by
  simp [text, intercalate_cons_cons]

theorem strtoul_text (c : BitVec 8) (rest : Str) (hrest : ∀ x ∈ rest.head?, x = 58) :
    BitVec.ofNat 8 (strtoul (sprintf_02X c ++ rest)) = c ∧
      strtoul_end (sprintf_02X c ++ rest) = rest := by
  obtain ⟨hdigits, hvalue⟩ := sprintf_spec c
  have hne : sprintf_02X c ≠ [] := cons_ne_nil _ _
  have hstop : ∀ x ∈ rest.head?, isxdigit x = false ∧ x ≠ 120 ∧ x ≠ 88 := by
    intro x hx
    rw [hrest x hx]
    decide
  refine ⟨?_, strtoul_end_append hne hdigits hstop⟩
  rw [strtoul_append hne hdigits hstop, hvalue, Nat.min_eq_left (by omega)]
  simp

theorem initLoop_text {string : Str} {cs : List (BitVec 8)} (hne : cs ≠ [])
    (hlen : (text cs).length ≤ string.length) : initLoop string cs.length (text cs) = cs := by
  induction cs with
  | nil => exact absurd rfl hne
  | cons c cs ih =>
    cases cs with
    | nil =>
      have htext : text [c] = sprintf_02X c ++ [] := by simp [text]
      obtain ⟨hvalue, hend⟩ := strtoul_text c [] (by simp)
      rw [htext, length_singleton, initLoop, hvalue, hend]
      exact congrArg (c :: ·) (if_pos (Or.inl rfl))
    | cons d cs =>
      obtain ⟨hvalue, hend⟩ := strtoul_text c (58 :: text (d :: cs)) (by simp)
      rw [text_cons_cons] at hlen ⊢
      rw [length_append, length_cons] at hlen
      have hcont : ¬ (58 :: text (d :: cs) = [] ∨
          (58 :: text (d :: cs)).length = string.length) := by
        have htwo : (sprintf_02X c).length = 2 := rfl
        rw [length_cons]
        rintro (h | h)
        · cases h
        · omega
      rw [length_cons, initLoop, hvalue, hend]
      rw [if_neg hcont, tail_cons, ih (cons_ne_nil _ _) (by omega)]

theorem ofString_printable (a : WvEtherAddr) : ofString a.printable = a := by
  have hloop : initLoop a.printable 6 a.printable = List.ofFn a.binaddr :=
    @initLoop_text a.printable (List.ofFn a.binaddr) (by simp) le_rfl
  rw [ofString, hloop]
  refine congrArg mk (funext fun i => ?_)
  rw [List.getD_eq_getElem?_getD, List.getElem?_ofFn, dif_pos i.isLt, Option.getD_some]

end WvEtherAddr

namespace WvIPAddr

theorem byte_spec (c : BitVec 8) : ofInt .int c.toNat ≠ [] ∧
    (∀ x ∈ ofInt .int c.toNat, isdigit x = true) ∧
    ∀ rest : Str, (∀ x ∈ rest.head?, isdigit x = false) →
      BitVec.ofInt 8 (strtol_10 (ofInt .int c.toNat ++ rest)) = c := by
  obtain ⟨hne, hdigits, hvalue⟩ := ofInt_nat .int c.toNat
  refine ⟨hne, hdigits, fun rest hrest => ?_⟩
  rw [strtol_10_append hne hdigits hrest (by omega), hvalue, BitVec.ofInt_natCast]
  simp

theorem initLoop_cons (c : BitVec 8) (rest : Str) (count : Nat) :
    initLoop (count + 1) (ofInt .int c.toNat ++ 46 :: rest) = c :: initLoop count rest := by
  obtain ⟨-, hdigits, hvalue⟩ := byte_spec c
  have hdot : (46 : Byte) ∉ ofInt .int c.toNat := fun h => absurd (hdigits 46 h) (by decide)
  have hstop : ∀ x ∈ (46 :: rest : Str).head?, isdigit x = false := by
    rintro _ ⟨⟩
    rfl
  rw [initLoop, hvalue _ hstop, strchr_append hdot]
  rfl

theorem initLoop_last (c : BitVec 8) {rest : Str} (hrest : ∀ x ∈ rest.head?, isdigit x = false) :
    initLoop 1 (ofInt .int c.toNat ++ rest) = [c] := by
  rw [initLoop, (byte_spec c).2.2 rest hrest]
  split <;> rfl

theorem printable_eq (a : WvIPAddr) : a.printable = ofInt .int (a.binaddr 0).toNat ++
    46 :: (ofInt .int (a.binaddr 1).toNat ++ 46 :: (ofInt .int (a.binaddr 2).toNat ++
      46 :: ofInt .int (a.binaddr 3).toNat)) := by
  simp [printable, ofFn_succ, intercalate_cons_cons]

theorem ofString_printable_append (a : WvIPAddr) (rest : Str)
    (hrest : ∀ x ∈ rest.head?, isdigit x = false) : ofString (a.printable ++ rest) = a := by
  have hloop : initLoop 4 (a.printable ++ rest) =
      [a.binaddr 0, a.binaddr 1, a.binaddr 2, a.binaddr 3] := by
    simp only [printable_eq, append_assoc, cons_append, initLoop_cons, initLoop_last _ hrest]
  rw [ofString, hloop]
  refine congrArg mk (funext fun i => ?_)
  match i with
  | 0 => rfl
  | 1 => rfl
  | 2 => rfl
  | 3 => rfl

theorem ofString_printable (a : WvIPAddr) : ofString a.printable = a := by
  have h := a.ofString_printable_append [] (by simp)
  rwa [List.append_nil] at h

theorem printable_chars (a : WvIPAddr) : ∀ c ∈ a.printable, isdigit c = true ∨ c = 46 := by
  intro c hc
  simp only [printable_eq, mem_append, mem_cons] at hc
  rcases hc with hc | rfl | hc | rfl | hc | rfl | hc
  · exact .inl ((byte_spec _).2.1 c hc)
  · exact .inr rfl
  · exact .inl ((byte_spec _).2.1 c hc)
  · exact .inr rfl
  · exact .inl ((byte_spec _).2.1 c hc)
  · exact .inr rfl
  · exact .inl ((byte_spec _).2.1 c hc)

theorem notMem_printable (a : WvIPAddr) {c : Byte} (h : isdigit c = false) (h' : c ≠ 46) :
    c ∉ a.printable := by
  intro hc
  rcases a.printable_chars c hc with hdigit | hdot
  · rw [h] at hdigit
    cases hdigit
  · exact h' hdot

end WvIPAddr

namespace WvIPNet

open WvIPAddr

theorem bit_imask {k : Nat} (hk : k ≤ 32) (i : Nat) :
    (ofHost (imask k)).bit i = decide (i < k) := by
  rw [bit, host_ofHost, imask]
  split
  · exact getMsbD_topOnes hk i
  · have hi : ¬ i < k := by omega
    simp [hi]

theorem mask_bit {n : WvIPNet} (h : n.Contiguous) {i : Nat} (hi : i < 32) :
    n.mask.bit i = decide (i < n.bits) := by
  obtain ⟨k, hk, hmask⟩ := h
  have hrun : IsLeadingOnes n.mask.host k := by
    refine ⟨hk, fun i hi => (hmask i (by omega)).trans (decide_eq_true hi), ?_⟩
    by_cases hlt : k < 32
    · exact (hmask k hlt).trans (decide_eq_false (Nat.lt_irrefl k))
    · exact BitVec.getMsbD_of_ge _ _ (by omega)
  have hbits : IsLeadingOnes n.mask.host n.bits := by
    rw [bits_iff, hmask 0 (by omega), hmask 1 (by omega)]
    simp only [decide_eq_true_eq]
    omega
  rw [hmask i hi, hbits.unique hrun]

/-- The base address has no bits that the mask does not have. -/
def Masked (n : WvIPNet) : Prop := n.network = n.base

theorem maskOfString_bits {string digits : Str} {k : Nat}
    (h : CStr.strchr string 47 = some (47 :: digits)) (hdot : 46 ∉ digits)
    (hatoi : atoi digits = k) (hk : k ≤ 32) : maskOfString string = some (ofHost (imask k)) := by
  have hle : ¬ (k : Int) > 32 := by omega
  rw [maskOfString, h]
  refine (if_neg hdot).trans ?_
  simp only [tail_cons, hatoi, if_neg hle, Int.toNat_natCast]

theorem maskOfString_printable {n : WvIPNet} (h : n.Contiguous) :
    maskOfString n.printable = some n.mask := by
  have hslash : ∀ a : WvIPAddr, 47 ∉ a.printable := fun a =>
    a.notMem_printable (by decide) (by decide)
  rw [printable]
  split_ifs with hbits
  · obtain ⟨hne, hdigits, hvalue⟩ := ofInt_nat .int n.bits
    have hdot : (46 : Byte) ∉ ofInt .int n.bits := fun h => absurd (hdigits 46 h) (by decide)
    have hmask : ofHost (imask n.bits) = n.mask := eq_iff_bit.mpr fun i hi => by
      rw [bit_imask n.bits_le, mask_bit h hi]
    have hatoi : atoi (ofInt .int n.bits) = n.bits := by
      rw [atoi_digits hne hdigits (by omega), hvalue]
    rw [maskOfString_bits (strchr_append (hslash _)) hdot hatoi n.bits_le, hmask]
  · have hall : n.bits = 32 := Nat.le_antisymm n.bits_le (by omega)
    have hcalc : WvIPAddr.ofString (bytes "255.255.255.255") = ofHost (imask 32) := by decide
    have hones : WvIPAddr.ofString (bytes "255.255.255.255") = n.mask := by
      rw [hcalc, eq_iff_bit]
      intro i hi
      rw [bit_imask le_rfl, mask_bit h hi, hall]
    rw [maskOfString, strchr_none (hslash _), ← hones]

theorem ofString_printable {n : WvIPNet} (h : n.Contiguous) (hbase : n.Masked) :
    ofString n.printable = some n := by
  have haddr : WvIPAddr.ofString n.printable = n.toWvIPAddr := by
    rw [printable]
    split_ifs with hbits
    · rw [WvIPAddr.ofString_printable_append _ _ (by rintro _ ⟨⟩; rfl)]
      exact hbase
    · exact n.toWvIPAddr.ofString_printable
  rw [ofString, maskOfString_printable h, haddr, Option.map_some]

end WvIPNet

namespace WvIPPortAddr

theorem ofString_printable (getservbyname : Str → Option (BitVec 16)) (a : WvIPPortAddr) :
    ofString getservbyname a.printable = a := by
  obtain ⟨hne, hdigits, hvalue⟩ := ofInt_nat .unsigned_short a.port.toNat
  have hport := a.port.isLt
  have hcolon : 58 ∉ a.toWvIPAddr.printable := a.notMem_printable (by decide) (by decide)
  have haddr : WvIPAddr.ofString a.printable = a.toWvIPAddr :=
    a.toWvIPAddr.ofString_printable_append _ (by rintro _ ⟨⟩; rfl)
  have hall : ¬ all_digits a.printable = true := by
    intro hall
    rw [all_digits, List.all_eq_true] at hall
    exact absurd (hall 58 (by simp [printable])) (by decide)
  have hatoi : BitVec.ofInt 16 (atoi (ofInt .unsigned_short a.port.toNat)) = a.port := by
    rw [atoi_digits hne hdigits (by omega), hvalue]
    simp
  rw [ofString, if_neg hall, haddr, printable, strchr_append hcolon, Option.some_or,
    Option.some_or]
  show (if ofInt .unsigned_short a.port.toNat = bytes "0" then _ else _) = a
  by_cases hnull : a.port = 0
  · have hzero : ofInt .unsigned_short a.port.toNat = bytes "0" := by
      rw [hnull]
      exact ofInt_of_nonneg _ le_rfl
    rw [if_pos hzero, ← hnull]
  · have hdigit : ofInt .unsigned_short a.port.toNat ≠ bytes "0" := by
      intro hzero
      rw [hzero] at hvalue
      exact hnull (BitVec.eq_of_toNat_eq hvalue.symm)
    rw [if_neg hdigit, List.tail_cons, hatoi]
    dsimp only
    rw [if_neg hnull]

end WvIPPortAddr

/-- Every address that has been printed is read back, and so is every network whose mask is
contiguous and has the bits of the base address. -/
theorem WvAddr.read_printable (getservbyname : Str → Option (BitVec 16)) :
    (∀ a : WvIPAddr, .ofString a.printable = a) ∧ (∀ a : WvEtherAddr, .ofString a.printable = a) ∧
    (∀ a : WvIPPortAddr, .ofString getservbyname a.printable = a) ∧
    ∀ n : WvIPNet, n.Contiguous → n.Masked → WvIPNet.ofString n.printable = some n :=
  ⟨WvIPAddr.ofString_printable, WvEtherAddr.ofString_printable,
    WvIPPortAddr.ofString_printable getservbyname, fun _ => WvIPNet.ofString_printable⟩

/-- 10.0.0.0/8. -/
theorem WvAddr.read_printable_net :
    WvIPNet.ofString (WvIPNet.ofBits (.ofHost 0x0A000000) 8).printable =
      some (.ofBits (.ofHost 0x0A000000) 8) :=
  (WvAddr.read_printable fun _ => none).2.2.2 _ ⟨8, by decide, by decide⟩ (by
    rw [WvIPNet.Masked]
    decide)

end WvStreams
