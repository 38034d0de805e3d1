import WvStreams.Strings.CNumber

/-!
# Formats

`do_format` goes over a format twice: it counts the bytes of the text, and writes them into memory
of that size. `do_format_fits_iff` says for which formats and arguments they fit: a width is
written out even if the precision, which limits what is counted, is less.
-/

namespace WvStreams

open List Option

abbrev percent : Byte := 37

/-- `isalpha` in the C locale. -/
def isalpha (c : Byte) : Bool := 65 ≤ c && c ≤ 90 || 97 ≤ c && c ≤ 122

/-- The argument pointers, of which each may be null. The constructor fills an array of 20 of them,
with null from the first argument on that is left out. -/
abbrev Argv := Nat → Option WvString

namespace Format

def int (n : Int) : Int := n.bmod (2 ^ 32)

/-- `INT_MIN` has no absolute value, and stays what it is. -/
def abs (n : Int) : Int := int (if n < 0 then -n else n)

/-- What `pparse` finds in a percent operator, and the format from its last character on. -/
structure Operator where
  zeropad : Bool
  justify : Int
  maxlen : Int := 0
  argnum : Int := 0
  rest : Str

/-- Where the format ends within the operator `maxlen` or `argnum` stay as they are, but the caller
does not look at them then. -/
def pparse (cptr : Str) : Operator :=
  let zeropad := cptr.head? == some 48
  let justify := atoi cptr
  match cptr.dropWhile fun c => !(c == 46 || c == percent || c == 36 || isalpha c) with
  | [] => { zeropad, justify, rest := [] }
  | c :: s =>
    let maxlen := if c = 46 then atoi s else 0
    match (c :: s).dropWhile fun c => !(c == percent || c == 36 || isalpha c) with
    | [] => { zeropad, justify, maxlen, rest := [] }
    | c :: s =>
      let argnum := if c = 36 then atoi s else 0
      { zeropad, justify, maxlen, argnum,
        rest := (c :: s).dropWhile fun c => !(c == percent || isalpha c) }

theorem pparse_rest {s rest : Str} {c : Byte} (h : (pparse s).rest = c :: rest) :
    rest.length < s.length + 1 := by
  have hle : (pparse s).rest.length ≤ s.length := by
    have hfirst := (dropWhile_suffix (l := s)
      fun c => !(c == 46 || c == percent || c == 36 || isalpha c)).length_le
    rw [pparse]
    split
    · exact Nat.zero_le s.length
    · rename_i c t ht
      rw [ht] at hfirst
      have hsecond := (dropWhile_suffix (l := c :: t)
        fun c => !(c == percent || c == 36 || isalpha c)).length_le
      dsimp only
      split
      · exact Nat.zero_le s.length
      · rename_i d u hu
        rw [hu] at hsecond
        have hthird := (dropWhile_suffix (l := d :: u)
          fun c => !(c == percent || isalpha c)).length_le
        exact (hthird.trans hsecond).trans hfirst
  rw [h, length_cons] at hle
  omega

variable (argv : Argv)

def argP (argnum : Int) (argptr : Nat) : Option WvString :=
  argv (if 0 < argnum then (argnum - 1).toNat else argptr)

def nextArg (argnum : Int) (argptr : Nat) : Nat := if argnum ≤ 0 then argptr + 1 else argptr

def blank : Str := bytes "(nil)"

def stringArg (arg : Option WvString) : Str := (arg.getD none).getD blank

def charArg (arg : Option WvString) : Byte :=
  let arg := arg.getD none
  UInt8.ofInt (atoi (if WvString.not arg then bytes " " else arg.getD []))

def ladd (justify maxlen : Int) (arg : Str) : Int :=
  let ladd := max (abs justify) (int arg.length)
  if maxlen ≠ 0 ∧ maxlen < ladd then maxlen else ladd

def aplen (maxlen : Int) (arg : Str) : Int :=
  let aplen := int arg.length
  if maxlen ≠ 0 ∧ maxlen < aplen then maxlen else aplen

/-- `memset` with the padding. -/
def pad (zeropad : Bool) (n : Int) : Str := List.replicate n.toNat (if zeropad then 48 else 32)

/-- No memory is as large as a negative number that is made a `size_t`. -/
def strncpy (arg : Str) (n : Int) : Option Str :=
  if n < 0 then none else some (arg.take n.toNat ++ List.replicate (n.toNat - arg.length) 0)

def writeString (zeropad : Bool) (justify maxlen : Int) (arg : Str) : Option Str :=
  let aplen := aplen maxlen arg
  (strncpy arg aplen).map fun text =>
    (if aplen < justify then pad zeropad (justify - aplen) else []) ++ text ++
      if justify < 0 ∧ aplen < int (-justify) then pad zeropad (int (-justify) - aplen) else []

/-- The pass that counts. It asserts that an operator ends in `s`, `c` or a percent sign. -/
def countLoop (format : Str) (argptr : Nat) (total : Int) : Option Int :=
  match format with
  | [] => some total
  | c :: s =>
    if c ≠ percent then countLoop s argptr (int (total + 1))
    else
      let o := pparse s
      match _h : (pparse s).rest with
      | [] => none
      | c :: rest =>
        if c = percent then countLoop rest argptr (int (total + 1))
        else if c = 115 then
          let arg := stringArg (argP argv o.argnum argptr)
          countLoop rest (nextArg o.argnum argptr) (int (total + ladd o.justify o.maxlen arg))
        else if c = 99 then countLoop rest (nextArg o.argnum argptr) (int (total + 1))
        else none
termination_by format.length
decreasing_by
  · exact Nat.lt_succ_self s.length
  all_goals exact pparse_rest _h

def renderLoop (format : Str) (argptr : Nat) : Option Str :=
  match format with
  | [] => some [0]
  | c :: s =>
    if c ≠ percent then (renderLoop s argptr).map (c :: ·)
    else
      let o := pparse s
      match _h : (pparse s).rest with
      | [] => none
      | c :: rest =>
        if c = percent then (renderLoop rest argptr).map (c :: ·)
        else if c = 115 then
          (writeString o.zeropad o.justify o.maxlen (stringArg (argP argv o.argnum argptr))).bind
            fun text => (renderLoop rest (nextArg o.argnum argptr)).map (text ++ ·)
        else if c = 99 then
          (renderLoop rest (nextArg o.argnum argptr)).map
            (charArg (argP argv o.argnum argptr) :: ·)
        else renderLoop rest argptr
termination_by format.length
decreasing_by
  · exact Nat.lt_succ_self s.length
  all_goals exact pparse_rest _h

end Format

/-- The size for which memory is taken, and what is written to it, with the terminator. Nothing
happens if an operator is none of those that are supported. -/
def do_format (format : Str) (argv : Argv) : Option (Int × Option Str) :=
  (Format.countLoop argv format 0 0).map fun total => (total, Format.renderLoop argv format 0)

namespace Format

inductive Piece where
  | char (c : Byte)
  | string (zeropad : Bool) (justify maxlen : Int) (arg : Str)

namespace Piece

def counted : Piece → Int
  | char _ => 1
  | string _ justify maxlen arg => ladd justify maxlen arg

def written : Piece → Option Str
  | char c => some [c]
  | string zeropad justify maxlen arg => writeString zeropad justify maxlen arg

/-- The length of the part: its text up to the precision, if there is one, and the padding. -/
def length : Piece → Int
  | char _ => 1
  | string _ justify maxlen arg => max (abs justify) (aplen maxlen arg)

/-- The precision is not negative, and not less than the width; the length of the argument is one
that an `int` can hold. -/
def Sound : Piece → Prop
  | char _ => True
  | string _ justify maxlen arg =>
    0 ≤ maxlen ∧ 0 ≤ int arg.length ∧ (maxlen = 0 ∨ abs justify ≤ maxlen)

/-- The width is an `int`. -/
def IsInt : Piece → Prop
  | char _ => True
  | string _ justify _ _ => -2 ^ 31 ≤ justify ∧ justify < 2 ^ 31

end Piece

section Pieces

variable (argv : Argv)

def pieces (format : Str) (argptr : Nat) : Option (List Piece) :=
  match format with
  | [] => some []
  | c :: s =>
    if c ≠ percent then (pieces s argptr).map (.char c :: ·)
    else
      let o := pparse s
      match _h : (pparse s).rest with
      | [] => none
      | c :: rest =>
        if c = percent then (pieces rest argptr).map (.char c :: ·)
        else if c = 115 then
          let arg := stringArg (argP argv o.argnum argptr)
          (pieces rest (nextArg o.argnum argptr)).map
            (.string o.zeropad o.justify o.maxlen arg :: ·)
        else if c = 99 then
          (pieces rest (nextArg o.argnum argptr)).map
            (.char (charArg (argP argv o.argnum argptr)) :: ·)
        else none
termination_by format.length
decreasing_by
  · exact Nat.lt_succ_self s.length
  all_goals exact pparse_rest _h

theorem pieces_operator {s rest : Str} {c : Byte} (h : (pparse s).rest = c :: rest) (argptr : Nat) :
    pieces argv (percent :: s) argptr =
      if c = percent then (pieces argv rest argptr).map (.char c :: ·)
      else if c = 115 then (pieces argv rest (nextArg (pparse s).argnum argptr)).map
          (.string (pparse s).zeropad (pparse s).justify (pparse s).maxlen
            (stringArg (argP argv (pparse s).argnum argptr)) :: ·)
      else if c = 99 then (pieces argv rest (nextArg (pparse s).argnum argptr)).map
          (.char (charArg (argP argv (pparse s).argnum argptr)) :: ·)
      else none := by
  rw [pieces, if_neg (by simp)]
  split
  · rename_i hnil
    rw [h] at hnil
    cases hnil
  · rename_i d rest' hcons
    obtain ⟨rfl, rfl⟩ := cons.inj (h.symm.trans hcons)
    rfl

theorem pieces_open {s : Str} (h : (pparse s).rest = []) (argptr : Nat) :
    pieces argv (percent :: s) argptr = none := by
  rw [pieces, if_neg (by simp)]
  split
  · rfl
  · rename_i hcons
    rw [h] at hcons
    cases hcons

def count (ps : List Piece) (total : Int) : Int :=
  ps.foldl (fun total p => int (total + p.counted)) total

def render : List Piece → Option Str
  | [] => some [0]
  | p :: ps => p.written.bind fun text => (render ps).map (text ++ ·)

theorem countLoop_eq (format : Str) (argptr : Nat) (total : Int) :
    countLoop argv format argptr total = (pieces argv format argptr).map (count · total) := by
  fun_induction countLoop argv format argptr total with
  | case1 argptr total => rw [pieces]; rfl
  | case2 argptr total c s hc ih =>
    rw [pieces, if_pos hc, ih, Option.map_map]
    rfl
  | case3 argptr total c s hc hrest =>
    rw [not_not.mp hc, pieces_open argv hrest]
    rfl
  | case4 argptr total c s hc rest hrest ih =>
    rw [not_not.mp hc, pieces_operator argv hrest, if_pos rfl, ih, Option.map_map]
    rfl
  | case5 argptr total c s hc o rest arg hrest hs ih =>
    rw [not_not.mp hc, pieces_operator argv hrest, if_neg (by decide), if_pos rfl, ih,
      Option.map_map]
    rfl
  | case6 argptr total c s hc o rest hrest hp hs ih =>
    rw [not_not.mp hc, pieces_operator argv hrest, if_neg (by decide), if_neg (by decide),
      if_pos rfl, ih, Option.map_map]
    rfl
  | case7 argptr total c s hc d rest hrest hd hs hch =>
    rw [not_not.mp hc, pieces_operator argv hrest, if_neg hd, if_neg hs, if_neg hch]
    rfl

theorem renderLoop_eq {format : Str} {argptr : Nat} {ps : List Piece}
    (h : pieces argv format argptr = some ps) : renderLoop argv format argptr = render ps := by
  fun_induction renderLoop argv format argptr generalizing ps with
  | case1 argptr =>
    rw [pieces] at h
    obtain rfl := some.inj h
    rfl
  | case2 argptr c s hc ih =>
    rw [pieces, if_pos hc] at h
    obtain ⟨ps, hps, rfl⟩ := map_eq_some_iff.mp h
    rw [ih hps]
    rfl
  | case3 argptr c s hc hrest =>
    rw [not_not.mp hc, pieces_open argv hrest] at h
    cases h
  | case4 argptr c s hc rest hrest ih =>
    rw [not_not.mp hc, pieces_operator argv hrest, if_pos rfl] at h
    obtain ⟨ps, hps, rfl⟩ := map_eq_some_iff.mp h
    rw [ih hps]
    rfl
  | case5 argptr c s hc o rest hrest hs =>
    rename_i ih
    rw [not_not.mp hc, pieces_operator argv hrest, if_neg (by decide), if_pos rfl] at h
    obtain ⟨ps, hps, rfl⟩ := map_eq_some_iff.mp h
    rw [ih hps]
    rfl
  | case6 argptr c s hc o rest hrest hp hs =>
    rename_i ih
    rw [not_not.mp hc, pieces_operator argv hrest, if_neg (by decide), if_neg (by decide),
      if_pos rfl] at h
    obtain ⟨ps, hps, rfl⟩ := map_eq_some_iff.mp h
    rw [ih hps]
    rfl
  | case7 argptr c s hc d rest hrest hd hs hch ih =>
    rw [not_not.mp hc, pieces_operator argv hrest, if_neg hd, if_neg hs, if_neg hch] at h
    cases h

end Pieces

theorem int_range (n : Int) : -2 ^ 31 ≤ int n ∧ int n < 2 ^ 31 := by
  have hlow := Int.le_bmod (x := n) (m := 2 ^ 32) (by decide)
  have hhigh := Int.bmod_lt (x := n) (m := 2 ^ 32) (by decide)
  rw [int]
  omega

theorem int_eq {n : Int} (hlow : -2 ^ 31 ≤ n) (hhigh : n < 2 ^ 31) : int n = n :=
  Int.bmod_eq_of_le (by omega) (by omega)

theorem int_le {n : Int} (h : 0 ≤ n) : int n ≤ n := by
  by_cases hn : n < 2 ^ 31
  · rw [int_eq (by omega) hn]
  · have hhigh := (int_range n).2
    omega

theorem int_add (m n : Int) : int (int m + n) = int (m + n) := Int.bmod_add_bmod

theorem atoi_int (s : Str) : -2 ^ 31 ≤ atoi s ∧ atoi s < 2 ^ 31 := by
  unfold atoi
  split
  exact int_range _

theorem pparse_justify (s : Str) : (pparse s).justify = atoi s := by
  rw [pparse]
  split
  · rfl
  · dsimp only
    split <;> rfl

variable {arg : Str} {maxlen : Int}

theorem aplen_nonneg_iff : 0 ≤ aplen maxlen arg ↔ 0 ≤ maxlen ∧ 0 ≤ int arg.length := by
  rw [aplen]
  split <;> omega

theorem ladd_le {justify maxlen : Int} {arg : Str} (hmax : 0 ≤ maxlen) (harg : 0 ≤ int arg.length) :
    0 ≤ ladd justify maxlen arg ∧ ladd justify maxlen arg ≤ max (abs justify) (aplen maxlen arg) ∧
      (ladd justify maxlen arg = max (abs justify) (aplen maxlen arg) ↔
        maxlen = 0 ∨ abs justify ≤ maxlen) := by
  rw [ladd, aplen]
  refine ⟨?_, ?_, ?_⟩
  · split <;> omega
  · split <;> split <;> omega
  · split <;> split <;> omega

theorem strncpy_some {text : Str} {n : Int} (h : strncpy arg n = some text) :
    0 ≤ n ∧ (text.length : Int) = n := by
  rw [strncpy] at h
  split at h
  · cases h
  · obtain rfl := some.inj h
    refine ⟨by omega, ?_⟩
    rw [length_append, length_take, length_replicate]
    omega

theorem pad_length (zeropad : Bool) {n : Int} (h : 0 ≤ n) : ((pad zeropad n).length : Int) = n := by
  rw [pad, length_replicate]
  exact Int.toNat_of_nonneg h

theorem writeString_length {zeropad : Bool} {justify : Int} {text : Str}
    (hlow : -2 ^ 31 ≤ justify) (hhigh : justify < 2 ^ 31)
    (h : writeString zeropad justify maxlen arg = some text) :
    0 ≤ aplen maxlen arg ∧ (text.length : Int) = max (abs justify) (aplen maxlen arg) := by
  obtain ⟨copy, hcopy, rfl⟩ := map_eq_some_iff.mp h
  obtain ⟨hpos, hlen⟩ := strncpy_some hcopy
  refine ⟨hpos, ?_⟩
  generalize aplen maxlen arg = n at hpos hlen ⊢
  rw [length_append, length_append, Int.natCast_add, Int.natCast_add, hlen]
  by_cases hneg : justify < 0
  · rw [abs, if_pos hneg, if_neg (by omega), length_nil]
    split
    · rw [pad_length _ (by omega)]
      omega
    · rw [length_nil]
      omega
  · have hright : ¬ (justify < 0 ∧ n < int (-justify)) := fun hn => hneg hn.1
    rw [abs, if_neg hneg, int_eq (by omega) hhigh, if_neg hright, length_nil]
    split
    · rw [pad_length _ (by omega)]
      omega
    · rw [length_nil]
      omega

theorem writeString_of_nonneg {zeropad : Bool} {justify : Int} (h : 0 ≤ aplen maxlen arg) :
    ∃ text, writeString zeropad justify maxlen arg = some text := by
  have hcopy : strncpy arg (aplen maxlen arg) = some _ := if_neg (Int.not_lt.mpr h)
  rw [writeString, hcopy]
  exact ⟨_, rfl⟩

namespace Piece

theorem length_of_written {p : Piece} {text : Str} (hint : p.IsInt) (h : p.written = some text) :
    (text.length : Int) = p.length ∧ 0 ≤ p.counted ∧ p.counted ≤ p.length ∧
      (p.counted = p.length ↔ p.Sound) := by
  cases p with
  | char c =>
    obtain rfl := some.inj h
    exact ⟨rfl, Int.one_nonneg, Int.le_refl _, fun _ => trivial, fun _ => rfl⟩
  | string zeropad justify maxlen arg =>
    obtain ⟨hpos, hlen⟩ := writeString_length hint.1 hint.2 h
    obtain ⟨hmax, harg⟩ := aplen_nonneg_iff.mp hpos
    obtain ⟨hcounted, hle, hsound⟩ := @ladd_le justify maxlen arg hmax harg
    refine ⟨hlen, hcounted, hle, hsound.trans ?_⟩
    exact ⟨fun h => ⟨hmax, harg, h⟩, fun h => h.2.2⟩

theorem Sound.written {p : Piece} (h : p.Sound) : ∃ text, p.written = some text := by
  cases p with
  | char c => exact ⟨_, rfl⟩
  | string zeropad justify maxlen arg =>
    exact writeString_of_nonneg (aplen_nonneg_iff.mpr ⟨h.1, h.2.1⟩)

end Piece

theorem count_int (ps : List Piece) (total : Int) :
    count ps (int total) = int (total + (ps.map Piece.counted).sum) := by
  induction ps generalizing total with
  | nil => rw [map_nil, sum_nil, Int.add_zero]; rfl
  | cons p ps ih =>
    rw [count, foldl_cons, int_add]
    exact (ih _).trans (by rw [map_cons, sum_cons, Int.add_assoc])

theorem length_of_render {ps : List Piece} {out : Str} (hint : ∀ p ∈ ps, p.IsInt)
    (h : render ps = some out) :
    (out.length : Int) = (ps.map Piece.length).sum + 1 ∧ 0 ≤ (ps.map Piece.counted).sum ∧
      (ps.map Piece.counted).sum ≤ (ps.map Piece.length).sum ∧
      ((ps.map Piece.counted).sum = (ps.map Piece.length).sum ↔ ∀ p ∈ ps, p.Sound) := by
  induction ps generalizing out with
  | nil =>
    obtain rfl := some.inj h
    simp
  | cons p ps ih =>
    obtain ⟨text, htext, hrest⟩ := bind_eq_some_iff.mp h
    obtain ⟨rest, hrender, rfl⟩ := map_eq_some_iff.mp hrest
    obtain ⟨hlen, hpos, hle, hsound⟩ := Piece.length_of_written (hint p mem_cons_self) htext
    obtain ⟨hlens, hsum, hles, hsounds⟩ :=
      ih (fun q hq => hint q (mem_cons_of_mem p hq)) hrender
    simp only [map_cons, sum_cons, forall_mem_cons, length_append, Int.natCast_add]
    refine ⟨by omega, by omega, by omega, ?_⟩
    rw [← hsound, ← hsounds]
    omega

theorem render_of_sound {ps : List Piece} (h : ∀ p ∈ ps, p.Sound) : ∃ out, render ps = some out := by
  induction ps with
  | nil => exact ⟨[0], rfl⟩
  | cons p ps ih =>
    obtain ⟨text, htext⟩ := (h p mem_cons_self).written
    obtain ⟨out, hout⟩ := ih fun q hq => h q (mem_cons_of_mem p hq)
    refine ⟨text ++ out, ?_⟩
    rw [render, htext, bind_some, hout]
    rfl

theorem pieces_isInt {argv : Argv} {format : Str} {argptr : Nat} {ps : List Piece}
    (h : pieces argv format argptr = some ps) : ∀ p ∈ ps, p.IsInt := by
  have hcons {p : Piece} {qs : List Piece} (hp : p.IsInt) (hqs : ∀ q ∈ qs, q.IsInt) :
      ∀ q ∈ p :: qs, q.IsInt := forall_mem_cons.mpr ⟨hp, hqs⟩
  fun_induction pieces argv format argptr generalizing ps with
  | case1 argptr =>
    obtain rfl := some.inj h
    simp
  | case2 argptr c s hc ih =>
    obtain ⟨ps, hps, rfl⟩ := map_eq_some_iff.mp h
    exact hcons trivial (ih hps)
  | case3 => cases h
  | case4 argptr c s hc rest hrest ih =>
    obtain ⟨ps, hps, rfl⟩ := map_eq_some_iff.mp h
    exact hcons trivial (ih hps)
  | case5 argptr c s hc o rest arg hrest hs =>
    rename_i ih
    obtain ⟨ps, hps, rfl⟩ := map_eq_some_iff.mp h
    refine hcons ?_ (ih hps)
    have hint := atoi_int s
    rwa [← pparse_justify] at hint
  | case6 argptr c s hc o rest hrest hp hs =>
    rename_i ih
    obtain ⟨ps, hps, rfl⟩ := map_eq_some_iff.mp h
    exact hcons trivial (ih hps)
  | case7 => cases h

/-- The bytes that `setsize` adds for the terminator. -/
def WVSTRING_EXTRA : Int := 1

def Fits (format : Str) (argv : Argv) : Prop :=
  ∀ total out, do_format format argv = some (total, out) →
    ∃ text, out = some text ∧ (text.length : Int) ≤ total + WVSTRING_EXTRA

end Format

open Format

/-- A format is rendered within its memory if no precision is negative or less than its width, no
argument is too long for an `int`, and the text is not either. -/
theorem do_format_fits_iff (format : Str) (argv : Argv) :
    Format.Fits format argv ↔ ∀ ps, Format.pieces argv format 0 = some ps →
      (∀ p ∈ ps, p.Sound) ∧ (ps.map Format.Piece.length).sum < 2 ^ 31 := by
  have hformat : do_format format argv = (pieces argv format 0).map fun ps =>
      (int ((ps.map Piece.counted).sum), renderLoop argv format 0) := by
    have hcount (ps : List Piece) := count_int ps 0
    simp only [Int.zero_add] at hcount
    rw [do_format, countLoop_eq, Option.map_map]
    congr 1
    funext ps
    exact congrArg (fun total => (total, renderLoop argv format 0)) (hcount ps)
  rw [Fits, hformat]
  cases hps : pieces argv format 0 with
  | none =>
    constructor
    · rintro - ps ⟨⟩
    · rintro - total out ⟨⟩
  | some ps =>
    have hint := pieces_isInt hps
    rw [renderLoop_eq argv hps]
    constructor
    · rintro h qs ⟨⟩
      obtain ⟨text, htext, hfits⟩ := h _ _ rfl
      obtain ⟨hlen, hpos, hle, hsound⟩ := length_of_render hint htext
      have hcut := int_le hpos
      have hrange := (int_range (ps.map Piece.counted).sum).2
      rw [WVSTRING_EXTRA] at hfits
      exact ⟨hsound.mp (by omega), by omega⟩
    · intro h total out hout
      obtain ⟨hsounds, hlong⟩ := h ps rfl
      obtain ⟨rfl, rfl⟩ := Prod.mk.inj (Option.some.inj hout)
      obtain ⟨text, htext⟩ := render_of_sound hsounds
      obtain ⟨hlen, hpos, -, hsound⟩ := length_of_render hint htext
      have hsum := hsound.mpr hsounds
      refine ⟨text, htext, ?_⟩
      rw [int_eq (by omega) (by omega), WVSTRING_EXTRA]
      omega

/-- The arguments of the example that `do_format` is documented with. -/
def documentedArgs : Argv := fun i =>
  [some (some (bytes "foo")), some (some (bytes "blue")), some (some (bytes "1234"))].getD i none

/-- In that example the text has 23 bytes and a terminator, and 15 bytes are counted. -/
theorem documented_not_fits : ¬ Format.Fits (bytes "%s%10.2s%-10s") documentedArgs := by
  have hrun : do_format (bytes "%s%10.2s%-10s") documentedArgs =
      some (15, some (bytes "foo        bl1234      " ++ [0])) := by decide +kernel
  intro h
  obtain ⟨text, htext, hle⟩ := h _ _ hrun
  obtain rfl := Option.some.inj htext
  exact absurd hle (by decide)

end WvStreams
