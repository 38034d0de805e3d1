import WvStreams.Lib.TwoPass
import WvStreams.Strings.TclList

/-!
# The two passes over a word

`wvtcl_escape` and `wvtcl_unescape` are run twice, to count and to write. Here they read a string
byte by byte from memory and write into memory of a fixed size, and fail when they leave either.
`unescape_in_bounds_iff` says when `wvtcl_unescape` does not, and `word_round_trip` that each undoes
the other with passes that agree.
-/

namespace WvStreams

open Lib Dest Option List

/-- The byte at a place of a string, with its `NUL`; none if the place is outside. -/
def byteAt (s : Str) (i : Int) : Option Byte := if 0 ≤ i then (s ++ [0])[i.toNat]? else none

/-- The bytes from a place on, for `memcpy`. -/
def bytesAt (s : Str) (i n : Nat) : Option Str :=
  if i + n ≤ s.length + 1 then some (((s ++ [0]).drop i).take n) else none

/-- The memory of a string of this size: `calloc` clears it, and `WVSTRING_EXTRA` is one. -/
def setsize (i : Nat) : Str := replicate (i + 1) 0

namespace Tcl

/-! ## The passes -/

namespace Pass

section Escape

variable (nasties : WvStringMask)

/-- The loop that looks at the characters, and does nothing to them. -/
def scanLoop (dst : Dest Byte) (len : Nat) (n : EscapeCount) :
    Str → Option (Nat × EscapeCount × Dest Byte)
  | [] => some (len, n, dst)
  | c :: s => (dst.store len c).bind fun dst => scanLoop dst (len + 1) (n.next nasties c) s

def backslashLoop (dst : Dest Byte) (len : Nat) : Str → Option (Nat × Dest Byte)
  | [] => some (len, dst)
  | c :: s =>
    if nasty nasties c then
      (dst.store len backslash).bind fun dst =>
        (dst.store (len + 1) c).bind fun dst => backslashLoop dst (len + 2) s
    else (dst.store len c).bind fun dst => backslashLoop dst (len + 1) s

/-- What `wvtcl_escape` does when it has looked at the characters. -/
def writeEscaped (dst : Dest Byte) (s : Str) (n : EscapeCount) (len : Nat) :
    Option (Nat × Dest Byte × Bool) :=
  -- if the braces aren't balanced, backslashify
  let backslashify := n.backslashify || n.bracecount != 0 || n.inescape
  if !backslashify && n.unprintables == 0 then some (len, dst, true)
  else if backslashify then
    if dst.isSome then (backslashLoop nasties dst 0 s).map fun (len, dst) => (len, dst, false)
    else some (len + n.unprintables, dst, false)
  else
    if dst.isSome then
      (dst.copy 0 (lbrace :: s ++ [rbrace])).map fun dst => (s.length + 2, dst, false)
    else some (len + 2, dst, false)

/-- The length, what has been written, and `verbatim`. -/
def wvtcl_escape (dst : Dest Byte) (s : WvString) : Option (Nat × Dest Byte × Bool) :=
  match s with
  | none => some (0, dst, false)
  | some s =>
    if s = [] then (dst.copy 0 [lbrace, rbrace]).map fun dst => (2, dst, false)
    else
      (scanLoop nasties dst 0 {} s).bind fun (len, n, dst) => writeEscaped nasties dst s n len

end Escape

/-- The loop of `wvtcl_unescape`, up to the place `stop` and nowhere else. -/
def readLoop (s : Str) (stop start len : Nat) (inescape : Bool) (dst : Dest Byte) :
    Option (Nat × Dest Byte) :=
  if start = stop then some (len, dst)
  else
    match _h : (s ++ [0])[start]? with
    | none => none
    | some c =>
      if c = backslash then
        if inescape then
          (dst.store len c).bind fun dst => readLoop s stop (start + 1) (len + 1) false dst
        else readLoop s stop (start + 1) len true dst
      else (dst.store len c).bind fun dst => readLoop s stop (start + 1) (len + 1) false dst
termination_by s.length + 1 - start
decreasing_by
  all_goals
    have hlt := (List.getElem?_eq_some_iff.mp _h).1
    rw [length_append, length_singleton] at hlt
    omega

/-- The string stands between marks of these kinds. The last byte is not looked at if the first one
is another. -/
def between (s : Str) (s_len : Nat) (opening closing : Byte) : Option Bool :=
  (byteAt s 0).bind fun first =>
    if first = opening then (byteAt s (s_len - 1)).map (· == closing) else some false

/-- The length, and what has been written. -/
def wvtcl_unescape (dst : Dest Byte) (s : Str) (s_len : Nat) : Option (Nat × Dest Byte) :=
  (between s s_len lbrace rbrace).bind fun embraced =>
    if embraced then
      (bytesAt s 1 (s_len - 2)).bind fun inner => (dst.copy 0 inner).map fun dst => (s_len - 2, dst)
    else
      (between s s_len quote quote).bind fun skipquotes =>
        if skipquotes then readLoop s (s_len - 1) 1 0 false dst
        else readLoop s s_len 0 0 false dst

end Pass

/-! ## The functions -/

def wvtcl_escape (nasties : WvStringMask) (s : WvString) : Option WvString :=
  (Pass.wvtcl_escape nasties none s).bind fun (len, _, verbatim) =>
    if verbatim then some s
    else
      (Pass.wvtcl_escape nasties (some (setsize len)) s).bind fun (len, e, _) =>
        (e.store len 0).map fun e => e.map cstr

/-- A null string is returned as it is. -/
def wvtcl_unescape (s : WvString) : Option WvString :=
  match s with
  | none => some none
  | some s =>
    (Pass.wvtcl_unescape none s s.length).bind fun (len, _) =>
      (Pass.wvtcl_unescape (some (setsize (len + 1))) s s.length).bind fun (len, e) =>
        (e.store len 0).map fun e => e.map cstr

namespace Pass

/-! ## Escaping -/

section Escape

variable {nasties : WvStringMask}

theorem scanLoop_filled {dst : Dest Byte} {out s : Str} (h : dst.Fits (out.length + s.length))
    (n : EscapeCount) :
    scanLoop nasties (dst.filled out) out.length n s =
      some (out.length + s.length, s.foldl (EscapeCount.next nasties) n, dst.filled (out ++ s)) := by
  induction s generalizing out n with
  | nil => rw [scanLoop, append_nil]; rfl
  | cons c s ih =>
    rw [length_cons] at h
    have hlen : (out ++ [c]).length = out.length + 1 := by
      rw [length_append, length_singleton]
    have hrest := @ih (out ++ [c]) (h.mono (by omega)) (n.next nasties c)
    rw [scanLoop, store_filled (h.mono (by omega)), bind_some, ← hlen, hrest, hlen,
      append_assoc, length_cons, Nat.add_assoc, Nat.add_comm 1]
    rfl

def backslashed (nasties : WvStringMask) (s : Str) : Str :=
  s.flatMap fun c => if nasty nasties c then [backslash, c] else [c]

theorem backslashed_cons (c : Byte) (s : Str) : backslashed nasties (c :: s) =
    (if nasty nasties c then [backslash, c] else [c]) ++ backslashed nasties s := rfl

theorem length_backslashed (s : Str) :
    (backslashed nasties s).length = s.length + s.countP (nasty nasties) := by
  induction s with
  | nil => rfl
  | cons c s ih =>
    rw [backslashed_cons, length_append, ih, countP_cons, length_cons]
    split
    · rw [length_cons, length_singleton]
      omega
    · rw [length_singleton]
      omega

theorem backslashLoop_filled {dst : Dest Byte} {out s : Str}
    (h : dst.Fits (out.length + (backslashed nasties s).length)) :
    backslashLoop nasties (dst.filled out) out.length s =
      some ((out ++ backslashed nasties s).length, dst.filled (out ++ backslashed nasties s)) := by
  induction s generalizing out with
  | nil => rw [backslashLoop, backslashed, flatMap_nil, append_nil]
  | cons c s ih =>
    rw [backslashed_cons, length_append] at h
    rw [backslashLoop, backslashed_cons, ← append_assoc]
    split at h
    · rename_i hc
      rw [length_cons, length_singleton] at h
      have hone : (out ++ [backslash]).length = out.length + 1 := by
        rw [length_append, length_singleton]
      have htwo : (out ++ [backslash] ++ [c]).length = out.length + 2 := by
        rw [length_append, hone, length_singleton]
      have hrest := @ih (out ++ [backslash] ++ [c]) (h.mono (by omega))
      have hpair : out ++ [backslash, c] = out ++ [backslash] ++ [c] := by
        rw [append_assoc]
        rfl
      rw [if_pos hc, if_pos hc, store_filled (h.mono (by omega)), bind_some, ← hone,
        store_filled (h.mono (by omega)), bind_some, ← htwo, hrest, hpair]
    · rename_i hc
      rw [length_singleton] at h
      have hone : (out ++ [c]).length = out.length + 1 := by
        rw [length_append, length_singleton]
      have hrest := @ih (out ++ [c]) (h.mono (by omega))
      rw [if_neg hc, if_neg hc, store_filled (h.mono (by omega)), bind_some, ← hone, hrest]

theorem wvtcl_escape_filled {dst : Dest Byte} {s : Str}
    (h : dst.Fits (wvtclEscapeStr nasties s).length) :
    ∃ verbatim, wvtcl_escape nasties dst (some s) =
        some ((wvtclEscapeStr nasties s).length, dst.filled (wvtclEscapeStr nasties s), verbatim) ∧
      (verbatim = true → wvtclEscapeStr nasties s = s) := by
  rw [wvtclEscapeStr] at h ⊢
  rw [wvtcl_escape]
  by_cases hs : s = []
  · rw [if_pos hs] at h ⊢
    refine ⟨false, ?_, by simp⟩
    rw [if_pos hs, copy_front h]
    rfl
  · rw [if_neg hs] at h ⊢
    rw [if_neg hs]
    dsimp only at h ⊢
    have hcount : (s.foldl (EscapeCount.next nasties) {}).unprintables = s.countP (nasty nasties) :=
      (EscapeCount.unprintables_foldl nasties {} s).trans (Nat.zero_add _)
    have hscan (hfits : dst.Fits s.length) :
        scanLoop nasties dst 0 {} s =
          some (s.length, s.foldl (EscapeCount.next nasties) {}, dst.filled s) := by
      have hloop := @scanLoop_filled nasties dst [] s (by simpa using hfits) {}
      simpa using hloop
    generalize s.foldl (EscapeCount.next nasties) {} = n at h hcount hscan ⊢
    by_cases hplain : (!(n.backslashify || n.bracecount != 0 || n.inescape) &&
        n.unprintables == 0) = true
    · rw [if_pos hplain] at h ⊢
      refine ⟨true, ?_, fun _ => rfl⟩
      rw [hscan h, bind_some, writeEscaped, if_pos hplain]
    · rw [if_neg hplain] at h ⊢
      by_cases hb : (n.backslashify || n.bracecount != 0 || n.inescape) = true
      · rw [if_pos hb] at h ⊢
        change dst.Fits (backslashed nasties s).length at h
        have hlen := @length_backslashed nasties s
        refine ⟨false, ?_, by simp⟩
        rw [hscan (h.mono (by omega)), bind_some, writeEscaped, if_neg hplain, if_pos hb]
        cases dst with
        | none =>
          rw [filled_none, if_neg (by simp), hcount, ← hlen]
          rfl
        | some mem =>
          have hloop := @backslashLoop_filled nasties (filled (some mem) s) [] s
            (by simpa using h.filled (h.mono (by omega)))
          rw [filled_nil, length_nil, nil_append,
            filled_filled _ (by omega : s.length ≤ _)] at hloop
          rw [if_pos (by rfl), hloop]
          rfl
      · rw [if_neg hb] at h ⊢
        have hlen : (lbrace :: s ++ [rbrace]).length = s.length + 2 := by simp
        refine ⟨false, ?_, by simp⟩
        rw [hscan (h.mono (by omega)), bind_some, writeEscaped, if_neg hplain, if_neg hb, hlen]
        cases dst with
        | none => rw [filled_none, if_neg (by simp), filled_none]
        | some mem =>
          have hcopy := @copy_front _ (filled (some mem) s)
            (lbrace :: s ++ [rbrace]) (h.filled (h.mono (by omega)))
          rw [filled_filled _ (by omega : s.length ≤ _)] at hcopy
          rw [if_pos (by rfl), hcopy]
          rfl

end Escape

/-! ## Unescaping -/

variable {s : Str} {s_len : Nat}

theorem drop_take_cons {start stop : Nat} {c : Byte} (hc : s[start]? = some c)
    (hlt : start < stop) :
    (s.drop start).take (stop - start) = c :: (s.drop (start + 1)).take (stop - (start + 1)) := by
  obtain ⟨hstart, rfl⟩ := List.getElem?_eq_some_iff.mp hc
  have hstop : stop - start = stop - (start + 1) + 1 := by omega
  rw [drop_eq_getElem_cons hstart, hstop, take_succ_cons]

theorem readLoop_filled {s : Str} {stop start : Nat} {inescape : Bool} {dst : Dest Byte}
    {out w : Str} (hle : start ≤ stop) (hstop : stop ≤ s.length)
    (hw : w = unescapeLoop inescape ((s.drop start).take (stop - start)))
    (h : dst.Fits (out.length + w.length)) :
    readLoop s stop start out.length inescape (dst.filled out) =
      some ((out ++ w).length, dst.filled (out ++ w)) := by
  obtain ⟨n, hn⟩ : ∃ n, n = stop - start := ⟨_, rfl⟩
  induction n generalizing start inescape out w with
  | zero =>
    have hend : start = stop := by omega
    rw [← hn, take_zero, unescapeLoop] at hw
    rw [readLoop, if_pos hend, hw, append_nil]
  | succ n ih =>
    have hne : start ≠ stop := by omega
    obtain ⟨c, hc⟩ : ∃ c, s[start]? = some c := ⟨_, getElem?_eq_getElem (by omega)⟩
    have hread : (s ++ [0])[start]? = some c := by
      rw [getElem?_append_left (by omega), hc]
    rw [drop_take_cons hc (by omega), unescapeLoop] at hw
    -- a byte is stored, and the loop goes on behind it
    have hstore (w' : Str) (hw' : w = c :: w')
        (htail : w' = unescapeLoop false ((s.drop (start + 1)).take (stop - (start + 1)))) :
        ((dst.filled out).store out.length c).bind
            (fun dst => readLoop s stop (start + 1) (out.length + 1) false dst) =
          some ((out ++ w).length, dst.filled (out ++ w)) := by
      rw [hw', length_cons] at h
      have hone : (out ++ [c]).length = out.length + 1 := by
        rw [length_append, length_singleton]
      have hrest := @ih (start + 1) false (out ++ [c]) w' (by omega) htail (h.mono (by omega)) (by omega)
      rw [store_filled (h.mono (by omega)), bind_some, ← hone, hrest, hw', append_assoc]
      rfl
    rw [readLoop, if_neg hne]
    split
    · rename_i hnone
      rw [hread] at hnone
      cases hnone
    · rename_i d hd
      obtain rfl : c = d := some.inj (hread.symm.trans hd)
      by_cases hb : c = backslash
      · rw [if_pos hb] at hw ⊢
        cases inescape with
        | true => exact hstore _ hw rfl
        | false => exact ih (by omega) hw h (by omega)
      · rw [if_neg hb] at hw ⊢
        exact hstore _ hw rfl

theorem readLoop_behind {stop start : Nat} (h : stop < start) (len : Nat) (inescape : Bool) :
    readLoop s stop start len inescape none = none := by
  obtain ⟨n, hn⟩ : ∃ n, n = s.length + 1 - start := ⟨_, rfl⟩
  induction n generalizing start len inescape with
  | zero =>
    rw [readLoop, if_neg (by omega)]
    split
    · rfl
    · rename_i hd
      have hlt := (List.getElem?_eq_some_iff.mp hd).1
      rw [length_append, length_singleton] at hlt
      omega
  | succ n ih =>
    have hnext := @ih (start + 1) (by omega)
    rw [readLoop, if_neg (by omega)]
    split
    · rfl
    · split
      · split
        · exact hnext _ _ (by omega)
        · exact hnext _ _ (by omega)
      · exact hnext _ _ (by omega)

theorem byteAt_zero {c : Byte} (hc : c ≠ 0) : byteAt s 0 = some c ↔ s.head? = some c := by
  cases s with
  | nil =>
    have hne : ¬ (0 : Byte) = c := fun h => hc h.symm
    simp [byteAt, hne]
  | cons d s => simp [byteAt]

theorem byteAt_zero_isSome (s : Str) : ∃ c, byteAt s 0 = some c := by
  cases s with
  | nil => exact ⟨0, rfl⟩
  | cons c s => exact ⟨c, rfl⟩

theorem byteAt_last (hpos : 1 ≤ s_len) (hlen : s_len ≤ s.length) :
    byteAt s (s_len - 1) = (s.take s_len).getLast? := by
  have hcast : ((s_len : Int) - 1).toNat = s_len - 1 := by omega
  have hmin : min s_len s.length - 1 = s_len - 1 := by omega
  rw [byteAt, if_pos (by omega), hcast, getElem?_append_left (by omega),
    getLast?_eq_getElem?, length_take, hmin, getElem?_take_of_lt (by omega)]

theorem head?_take {n : Nat} (hpos : 1 ≤ n) : (s.take n).head? = s.head? := by
  rw [List.head?_take, if_neg (by omega)]

theorem between_eq {s : Str} {s_len : Nat} {opening closing : Byte} (hopening : opening ≠ 0)
    (hlen : s_len ≤ s.length) (hpos : s.head? = some opening → 1 ≤ s_len) :
    between s s_len opening closing =
      some (decide ((s.take s_len).head? = some opening ∧
        (s.take s_len).getLast? = some closing)) := by
  obtain ⟨first, hfirst⟩ := byteAt_zero_isSome s
  rw [between, hfirst, bind_some]
  by_cases hopen : first = opening
  · have hhead : s.head? = some opening := (byteAt_zero hopening).mp (hopen ▸ hfirst)
    have hone := hpos hhead
    have hne : s.take s_len ≠ [] := by
      intro hnil
      have := congrArg length hnil
      rw [length_take, length_nil] at this
      omega
    rw [if_pos hopen, byteAt_last hone hlen, head?_take hone, hhead, getLast?_eq_some_getLast hne]
    refine congrArg some (?_ : (_ == _) = _)
    rw [Bool.eq_iff_iff]
    simp
  · have hhead : (s.take s_len).head? ≠ some opening := by
      intro hh
      have hs : s.head? = some opening := by
        rw [List.head?_take] at hh
        split at hh
        · cases hh
        · exact hh
      rw [(byteAt_zero hopening).mpr hs] at hfirst
      exact hopen (some.inj hfirst).symm
    rw [if_neg hopen]
    simp [hhead]

theorem between_none {opening closing : Byte} (hopening : opening ≠ 0)
    (hhead : s.head? = some opening) : between s 0 opening closing = none := by
  rw [between, (byteAt_zero hopening).mpr hhead, bind_some, if_pos rfl]
  rfl

/-- The string does not end before its closing mark. -/
def Closed (s : Str) (s_len : Nat) : Prop :=
  (s.head? = some lbrace → 1 ≤ s_len) ∧ (s.head? = some quote → 2 ≤ s_len)

theorem tail_dropLast_take (hlen : s_len ≤ s.length) :
    (s.take s_len).tail.dropLast = (s.drop 1).take (s_len - 2) := by
  rw [← drop_one, dropLast_eq_take, drop_take, take_take, length_take, length_drop]
  congr 1
  omega

theorem bytesAt_inner (hlen : s_len ≤ s.length) :
    bytesAt s 1 (s_len - 2) = some ((s.drop 1).take (s_len - 2)) := by
  by_cases htwo : 2 ≤ s_len
  · rw [bytesAt, if_pos (by omega), drop_append_of_le_length (by omega),
      take_append_of_le_length (by rw [length_drop]; omega)]
  · rw [bytesAt, if_pos (by omega), show s_len - 2 = 0 by omega, take_zero, take_zero]

theorem wvtcl_unescape_filled (hlen : s_len ≤ s.length) (hclosed : Closed s s_len) :
    ∃ out, wvtclUnescape (s.take s_len) = some out ∧ ∀ dst : Dest Byte, dst.Fits out.length →
        wvtcl_unescape dst s s_len = some (out.length, dst.filled out) := by
  have hbraces := @between_eq s s_len lbrace rbrace (by decide) hlen hclosed.1
  have hquotes := @between_eq s s_len quote quote (by decide) hlen
    fun h => Nat.le_of_succ_le (hclosed.2 h)
  have htake : (s.take s_len).length = s_len := length_take_of_le hlen
  by_cases hb : (s.take s_len).head? = some lbrace ∧ (s.take s_len).getLast? = some rbrace
  · rw [decide_eq_true hb] at hbraces
    have hsize : ((s.drop 1).take (s_len - 2)).length = s_len - 2 := by
      rw [length_take, length_drop]
      omega
    refine ⟨(s.drop 1).take (s_len - 2), ?_, ?_⟩
    · rw [wvtclUnescape, if_pos hb, tail_dropLast_take hlen]
    · intro dst hdst
      rw [wvtcl_unescape, hbraces, bind_some, if_pos rfl, bytesAt_inner hlen,
        bind_some, copy_front hdst, hsize]
      rfl
  · rw [decide_eq_false hb] at hbraces
    by_cases hq : (s.take s_len).head? = some quote ∧ (s.take s_len).getLast? = some quote
    · rw [decide_eq_true hq] at hquotes
      have htwo : 2 ≤ s_len := by
        apply hclosed.2
        have hh := hq.1
        rw [List.head?_take] at hh
        split at hh
        · cases hh
        · exact hh
      have hne : s.take s_len ≠ [quote] := by
        intro hs
        rw [hs, length_singleton] at htake
        omega
      refine ⟨unescapeLoop false ((s.drop 1).take (s_len - 2)), ?_, ?_⟩
      · rw [wvtclUnescape, if_neg hb, if_pos hq, if_neg hne, tail_dropLast_take hlen]
      · intro dst hdst
        have hloop := @readLoop_filled s (s_len - 1) 1 false dst []
          (unescapeLoop false ((s.drop 1).take (s_len - 2)))
          (by omega) (by omega) rfl (by rwa [length_nil, Nat.zero_add])
        rw [filled_nil] at hloop
        rw [wvtcl_unescape, hbraces, bind_some, if_neg Bool.false_ne_true, hquotes,
          bind_some, if_pos rfl]
        exact hloop
    · rw [decide_eq_false hq] at hquotes
      refine ⟨unescapeLoop false (s.take s_len), ?_, ?_⟩
      · rw [wvtclUnescape, if_neg hb, if_neg hq]
      · intro dst hdst
        have hloop := @readLoop_filled s s_len 0 false dst [] (unescapeLoop false (s.take s_len))
          (by omega) hlen rfl (by rwa [length_nil, Nat.zero_add])
        rw [filled_nil] at hloop
        rw [wvtcl_unescape, hbraces, bind_some, if_neg Bool.false_ne_true, hquotes,
          bind_some, if_neg Bool.false_ne_true]
        exact hloop

theorem closed_of_counts (hlen : s_len ≤ s.length) {r : Nat × Dest Byte}
    (h : wvtcl_unescape none s s_len = some r) : Closed s s_len := by
  have hbrace : s.head? = some lbrace → 1 ≤ s_len := by
    intro hhead
    by_contra hzero
    obtain rfl : s_len = 0 := by omega
    rw [wvtcl_unescape, between_none (by decide) hhead] at h
    cases h
  refine ⟨hbrace, ?_⟩
  intro hhead
  by_contra hshort
  have hnot : ¬ ((s.take s_len).head? = some lbrace ∧ (s.take s_len).getLast? = some rbrace) := by
    rintro ⟨hl, -⟩
    rw [List.head?_take] at hl
    split at hl
    · cases hl
    · exact absurd (some.inj (hhead.symm.trans hl)) (by decide)
  rw [wvtcl_unescape, between_eq (by decide) hlen hbrace, bind_some, decide_eq_false hnot,
    if_neg Bool.false_ne_true] at h
  obtain rfl | rfl : s_len = 0 ∨ s_len = 1 := by omega
  · rw [between_none (by decide) hhead] at h
    cases h
  · -- the loop starts at one and ends at zero
    have hone : s.take 1 = [quote] := by
      obtain ⟨c, t, rfl⟩ := exists_cons_of_length_pos hlen
      rw [some.inj hhead]
      rfl
    rw [between_eq (by decide) hlen fun _ => Nat.le_refl 1, bind_some, hone,
      if_pos (by decide), readLoop_behind (by omega)] at h
    cases h

/-- Both passes terminate and stay in the string, and the second one stays in the memory that the
first one has counted. -/
def InBounds (s : Str) (s_len : Nat) : Prop :=
  ∃ len, wvtcl_unescape none s s_len = some (len, none) ∧
    ∀ mem : List Byte, mem.length = len → ∃ written : List Byte,
      wvtcl_unescape (some mem) s s_len = some (len, some written) ∧ written.length = len

end Pass

/-! ## Bounds -/

open Pass

/-- `wvtcl_unescape` stays in bounds except at a lone quotation mark, and at no byte of a string
that starts with a brace or a quotation mark: there it looks at the byte before the string. -/
theorem unescape_in_bounds_iff (s : Str) (s_len : Nat) (hlen : s_len ≤ s.length) :
    Pass.InBounds s s_len ↔
      (s.head? = some lbrace → 1 ≤ s_len) ∧ (s.head? = some quote → 2 ≤ s_len) := by
  constructor
  · rintro ⟨len, hcount, -⟩
    exact closed_of_counts hlen hcount
  · intro hclosed
    obtain ⟨out, -, hpass⟩ := wvtcl_unescape_filled hlen hclosed
    refine ⟨out.length, hpass none (fits_none _), ?_⟩
    intro mem hmem
    refine ⟨out, ?_, rfl⟩
    rw [hpass (some mem) (fits_some (Nat.le_of_eq hmem.symm)), filled_all hmem]

/-- A word that ends in a backslash. -/
theorem unescape_in_bounds_backslash : Pass.InBounds [97, backslash] 2 :=
  (unescape_in_bounds_iff [97, backslash] 2 (by decide)).mpr ⟨by decide, by decide⟩

/-- A lone quotation mark: neither pass comes to its end within the string. -/
theorem unescape_lone_quote : ¬ Pass.InBounds [quote] 1 := by
  rintro ⟨len, hcount, -⟩
  have hquotes : Pass.between [quote] 1 quote quote = some true := rfl
  have hbraces : Pass.between [quote] 1 lbrace rbrace = some false := rfl
  rw [Pass.wvtcl_unescape, hbraces, Option.bind_some, if_neg Bool.false_ne_true, hquotes,
    Option.bind_some, if_pos rfl, Pass.readLoop_behind (by omega)] at hcount
  cases hcount

/-! ## The round trip -/

theorem store_nul {out : Str} {n : Nat} (hn : out.length ≤ n) (h0 : (0 : Byte) ∉ out) :
    ((filled (some (setsize n)) out).store out.length 0).map (fun e => e.map cstr) =
      some (some out) := by
  have hfits : Fits (some (setsize n)) (out.length + 1) := by
    apply fits_some
    rw [setsize, length_replicate]
    omega
  rw [store_filled hfits]
  show some (some (cstr (out ++ [0] ++ (setsize n).drop (out ++ [0]).length))) = _
  rw [append_assoc, singleton_append, cstr_append_nul h0]

theorem wvtcl_escape_eq (nasties : WvStringMask) {s : Str} (h0 : (0 : Byte) ∉ s) :
    wvtcl_escape nasties (some s) = some (some (wvtclEscapeStr nasties s)) := by
  obtain ⟨verbatim, hcount, hverbatim⟩ := @wvtcl_escape_filled nasties none s
    (fits_none _)
  have hfits : Fits (some (setsize (wvtclEscapeStr nasties s).length))
      (wvtclEscapeStr nasties s).length := by
    apply fits_some
    rw [setsize, length_replicate]
    omega
  obtain ⟨_, hwrite, -⟩ := wvtcl_escape_filled hfits
  have hnul : (0 : Byte) ∉ wvtclEscapeStr nasties s := by
    rw [wvtclEscapeStr_eq]
    exact nul_not_mem_escape h0
  rw [wvtcl_escape, hcount, bind_some]
  dsimp only
  cases verbatim with
  | true => rw [if_pos rfl, hverbatim rfl]
  | false =>
    rw [if_neg Bool.false_ne_true, hwrite, bind_some]
    exact store_nul (Nat.le_refl _) hnul

theorem wvtcl_unescape_eq {t s : Str} (hclosed : Closed t t.length)
    (hs : wvtclUnescape t = some s) (h0 : (0 : Byte) ∉ s) :
    wvtcl_unescape (some t) = some (some s) := by
  obtain ⟨out, hout, hpass⟩ := wvtcl_unescape_filled (Nat.le_refl _) hclosed
  rw [take_length] at hout
  obtain rfl : s = out := some.inj (hs.symm.trans hout)
  have hfits : Fits (some (setsize (s.length + 1))) s.length := by
    apply fits_some
    rw [setsize, length_replicate]
    omega
  rw [wvtcl_unescape, hpass none (fits_none _), bind_some]
  dsimp only
  rw [hpass _ hfits, bind_some]
  exact store_nul (Nat.le_succ _) h0

theorem closed_escape (nasties : WvStringMask) (s : Str) :
    Closed (wvtclEscapeStr nasties s) (wvtclEscapeStr nasties s).length ∧
      wvtclUnescape (wvtclEscapeStr nasties s) = some s := by
  have hfits : (escapeForm nasties s).Fits (.ofString none) :=
    escapeForm_fits (fun c hc => by cases hc) s
  let w : Written (.ofString none) := ⟨escapeForm nasties s, hfits, fun c _ => rfl⟩
  have hq : w.form.isQuoted = false := escapeForm_isQuoted nasties s
  have hvalue : w.form.value = s := escapeForm_value nasties s
  have hunescape := (w.passed hq).reads
  obtain ⟨c, t, htext, -, -, hc⟩ := w.text_cons
  rw [wvtclEscapeStr_eq]
  refine ⟨⟨fun _ => ?_, fun hhead => ?_⟩, hunescape.trans (congrArg some hvalue)⟩
  · rw [show (escapeForm nasties s).text = c :: t from htext]
    exact Nat.le_add_left 1 _
  · rw [show (escapeForm nasties s).text = c :: t from htext] at hhead
    exact absurd (some.inj hhead) (hc hq)

/-- What `wvtcl_escape` makes of a string `wvtcl_unescape` turns into the string again, and both
write what they have counted; so does `wvtcl_unescape` of any string where it returns at all. -/
theorem word_round_trip (nasties : WvStringMask) (s : Str) (h0 : (0 : Byte) ∉ s) :
    (∃ t, wvtcl_escape nasties (some s) = some (some t) ∧ wvtcl_unescape (some t) = some (some s) ∧
      Agree (fun dst => (Pass.wvtcl_escape nasties dst (some s)).map fun r => (r.1, r.2.1)) t ∧
      Agree (fun dst => Pass.wvtcl_unescape dst t t.length) s) ∧
    ∀ r, Pass.wvtcl_unescape none s s.length = some r →
      ∃ u, Agree (fun dst => Pass.wvtcl_unescape dst s s.length) u := by
  have hagree {u : Str} (hclosed : Pass.Closed u u.length) : ∃ out, wvtclUnescape u = some out ∧
      Agree (fun dst => Pass.wvtcl_unescape dst u u.length) out := by
    obtain ⟨out, hout, hpass⟩ := Pass.wvtcl_unescape_filled (Nat.le_refl _) hclosed
    rw [take_length] at hout
    exact ⟨out, hout, .of_filled hpass⟩
  obtain ⟨hclosed, hunescape⟩ := closed_escape nasties s
  constructor
  · refine ⟨wvtclEscapeStr nasties s, wvtcl_escape_eq nasties h0,
      wvtcl_unescape_eq hclosed hunescape h0, .of_filled ?_, ?_⟩
    · intro dst hdst
      obtain ⟨verbatim, hpass, -⟩ := Pass.wvtcl_escape_filled hdst
      rw [hpass]
      rfl
    · obtain ⟨out, hout, hpasses⟩ := hagree hclosed
      obtain rfl : out = s := Option.some.inj (hout.symm.trans hunescape)
      exact hpasses
  · intro r hr
    obtain ⟨out, -, hpasses⟩ := hagree (Pass.closed_of_counts (Nat.le_refl _) hr)
    exact ⟨out, hpasses⟩

/-- `a b`, with the default set. -/
theorem word_round_trip_spaces :
    ∃ t, wvtcl_escape wvtclNastySpaces (some [97, 32, 98]) = some (some t) ∧
      wvtcl_unescape (some t) = some (some [97, 32, 98]) := by
  obtain ⟨t, hescape, hunescape, -⟩ :=
    (word_round_trip wvtclNastySpaces [97, 32, 98] (by decide)).1
  exact ⟨t, hescape, hunescape⟩

end Tcl

end WvStreams
