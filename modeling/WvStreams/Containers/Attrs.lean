import WvStreams.Strings.Format
import WvStreams.Lib.Keyed
import WvStreams.Lib.Ring
import Mathlib.Data.List.Flatten

/-!
# `WvAttrs`

The attributes are in one block of memory: each name and each value with its NUL, and another NUL
behind them. `Layout` says which attributes a block holds. Lengths are an `int` or an `unsigned`
for the code, so that the attributes are a map from names to values exactly as long as what is
removed, what is behind it, each name and the whole block are short enough (`right_iff_small`).
-/

namespace WvStreams

open Lib.Ring List Option Format

structure WvAttrs where
  /-- The block, if it has been allocated. -/
  attrlist : Option Str
  attrlen : Nat
  deriving DecidableEq

namespace WvAttrs

/-! ## Memory -/

/-- The C string at the beginning of some bytes, if it ends there. -/
def cstr : Str → Option Str
  | [] => none
  | c :: s => if c = 0 then some [] else (cstr s).map (c :: ·)

/-- `realloc`: what is new holds anything. -/
def realloc (junk : Nat → Byte) (mem : Option Str) (size : Nat) : Str :=
  (mem.getD []).take size ++
    (List.range' (mem.getD []).length (size - (mem.getD []).length)).map junk

def memmove (mem : Str) (dst src : Int) (n : Nat) : Option Str :=
  if 0 ≤ dst ∧ dst + n ≤ mem.length ∧ 0 ≤ src ∧ src + n ≤ mem.length then
    some (move mem dst.toNat src.toNat n)
  else none

def strcpy (mem : Str) (dst : Int) (s : Str) : Option Str :=
  if 0 ≤ dst ∧ dst + (s.length + 1 : Nat) ≤ mem.length then some (blit mem dst.toNat (s ++ [0]))
  else none

def uint (n : Int) : Nat := (n % 2 ^ 32).toNat

/-! ## The functions -/

def empty : WvAttrs := ⟨none, 0⟩

/-- The loop of `_get`, `pos` bytes behind the beginning of the block: where the value is. None if
it leaves the block. -/
def getLoop (name : Str) (pos : Nat) : Str → Option (Option Nat)
  | [] => none
  | c :: mem =>
    if c = 0 then some none
    else
      match cstr (c :: mem) with
      | none => none
      | some key =>
        let valoffset := pos + key.length + 1
        if key = name then some (some valoffset)
        else
          match cstr (mem.drop key.length) with
          | none => none
          | some value =>
            getLoop name (valoffset + value.length + 1)
              ((mem.drop key.length).drop (value.length + 1))
termination_by mem => mem.length
decreasing_by
  simp only [List.length_drop, List.length_cons]
  omega

def _get (a : WvAttrs) (name : Str) : Option (Option Nat) :=
  match a.attrlist with
  | none => some none
  | some mem => getLoop name 0 mem

/-- The value that is there is copied. -/
def get (a : WvAttrs) (name : Str) : Option WvString :=
  (a._get name).bind fun found => found.elim (some none) fun valoffset =>
    (cstr ((a.attrlist.getD []).drop valoffset)).map some

/-- The part of `set` that removes an attribute, whose value is at `exists_`. -/
def remove (junk : Nat → Byte) (a : WvAttrs) (name : Str) (exists_ : Nat) : Option WvAttrs :=
  a.attrlist.bind fun mem => (cstr (mem.drop exists_)).bind fun value =>
    let namelen := int name.length
    let toremove := int (namelen + value.length + 2)
    -- index of name, rather than value
    let exists_ : Int := exists_ - (namelen + 1)
    -- length of part after what we want to remove
    let endpart := int (a.attrlen - exists_ - toremove + 1)
    (memmove mem exists_ (exists_ + toremove) (size_of_int endpart)).map fun mem =>
      let attrlen := uint (a.attrlen - toremove)
      ⟨some (realloc junk (some mem) (uint (attrlen + 1))), attrlen⟩

def append (junk : Nat → Byte) (a : WvAttrs) (name value : Str) : Option WvAttrs :=
  let namelen := int name.length
  let totallen := uint (namelen + value.length + 2)
  let mem := realloc junk a.attrlist (uint (a.attrlen + totallen + 1))
  let beginloc : Int := a.attrlen
  (strcpy mem beginloc name).bind fun mem =>
    (strcpy mem (beginloc + namelen + 1) value).bind fun mem =>
      let attrlen := uint (a.attrlen + totallen)
      if attrlen < mem.length then some ⟨some (mem.set attrlen 0), attrlen⟩ else none

def set (junk : Nat → Byte) (a : WvAttrs) (name value : WvString) : Option WvAttrs :=
  if name.not then some a
  else
    (a._get (name.getD [])).bind fun exists_ =>
      (exists_.elim (some a) (a.remove junk (name.getD []))).bind fun a =>
        -- make a null or empty value a delete
        if value.not then some a else a.append junk (name.getD []) (value.getD [])

/-! ## The attributes of a block -/

def entry (p : Str × Str) : Str := p.1 ++ 0 :: (p.2 ++ [0])

def flat (pairs : List (Str × Str)) : Str := pairs.flatMap entry

structure Word (s : Str) : Prop where
  ne_nil : s ≠ []
  nul_free : 0 ∉ s

structure Layout (a : WvAttrs) (pairs : List (Str × Str)) : Prop where
  attrlen_eq : a.attrlen = (flat pairs).length
  attrlen_lt : a.attrlen + 1 < 2 ^ 32
  attrlist_eq : a.attrlist = some (flat pairs ++ [0]) ∨ a.attrlist = none ∧ pairs = []
  words : ∀ p ∈ pairs, Word p.1 ∧ Word p.2
  distinct : (pairs.map Prod.fst).Nodup

theorem length_entry (p : Str × Str) : (entry p).length = p.1.length + p.2.length + 2 := by
  rw [entry, length_append, length_cons, length_append, length_singleton]
  omega

theorem flat_append (ps qs : List (Str × Str)) : flat (ps ++ qs) = flat ps ++ flat qs :=
  flatMap_append

theorem flat_cons (p : Str × Str) (ps : List (Str × Str)) : flat (p :: ps) = entry p ++ flat ps :=
  flatMap_cons

theorem cstr_append {s : Str} (h : 0 ∉ s) (rest : Str) : cstr (s ++ 0 :: rest) = some s := by
  induction s with
  | nil => rfl
  | cons c s ih =>
    obtain ⟨hc, hs⟩ := not_or.mp (fun hor => h (mem_cons.mpr hor))
    rw [cons_append, cstr, if_neg (Ne.symm hc), ih hs]
    rfl

/-! ## Looking a name up -/

def place (name : Str) (pos : Nat) : List (Str × Str) → Option Nat
  | [] => none
  | p :: ps =>
    if p.1 = name then some (pos + p.1.length + 1) else place name (pos + (entry p).length) ps

variable {pairs ps qs : List (Str × Str)} {name value : Str} {a : WvAttrs}

theorem getLoop_flat (name : Str) (pos : Nat) (hwords : ∀ p ∈ pairs, Word p.1 ∧ Word p.2) :
    getLoop name pos (flat pairs ++ [0]) = some (place name pos pairs) := by
  induction pairs generalizing pos with
  | nil =>
    show getLoop name pos [0] = some none
    rw [getLoop, if_pos rfl]
  | cons p ps ih =>
    obtain ⟨⟨hkey, hvalue⟩, hwords⟩ := forall_mem_cons.mp hwords
    obtain ⟨c, s, hcons⟩ := exists_cons_of_ne_nil hkey.ne_nil
    have hc : c ≠ 0 := by
      rintro rfl
      exact hkey.nul_free (hcons ▸ mem_cons_self)
    have hmem : flat (p :: ps) ++ [0] = p.1 ++ 0 :: (p.2 ++ 0 :: (flat ps ++ [0])) := by
      simp [flat_cons, entry]
    have hfirst := cstr_append hkey.nul_free (p.2 ++ 0 :: (flat ps ++ [0]))
    have hsecond := cstr_append hvalue.nul_free (flat ps ++ [0])
    have hdrop : (s ++ 0 :: (p.2 ++ 0 :: (flat ps ++ [0]))).drop p.1.length =
        p.2 ++ 0 :: (flat ps ++ [0]) := by
      rw [hcons, length_cons, ← drop_drop, drop_left]
      rfl
    have hdrop' : (p.2 ++ 0 :: (flat ps ++ [0])).drop (p.2.length + 1) = flat ps ++ [0] := by
      rw [← drop_drop, drop_left]
      rfl
    rw [hmem, hcons, cons_append, getLoop, if_neg hc, ← cons_append, ← hcons, hfirst]
    dsimp only
    rw [place]
    by_cases hname : p.1 = name
    · rw [if_pos hname, if_pos hname]
    · rw [if_neg hname, if_neg hname, hdrop, hsecond]
      dsimp only
      rw [hdrop', ih _ hwords, length_entry]
      congr 2
      omega

theorem place_eq_none (h : name ∉ pairs.map Prod.fst) (pos : Nat) :
    place name pos pairs = none := by
  induction pairs generalizing pos with
  | nil => rfl
  | cons p ps ih =>
    obtain ⟨hp, hps⟩ := not_or.mp (fun hor => h (mem_cons.mpr hor))
    rw [place, if_neg (Ne.symm hp), ih hps]

theorem place_append (h : name ∉ ps.map Prod.fst) (value : Str) (qs : List (Str × Str))
    (pos : Nat) : place name pos (ps ++ (name, value) :: qs) =
      some (pos + (flat ps).length + name.length + 1) := by
  induction ps generalizing pos with
  | nil => exact if_pos rfl
  | cons p ps ih =>
    obtain ⟨hp, hps⟩ := not_or.mp (fun hor => h (mem_cons.mpr hor))
    rw [cons_append, place, if_neg (Ne.symm hp), ih hps, flat_cons, length_append]
    congr 1
    omega

theorem Layout.get_place (h : Layout a pairs) (name : Str) :
    a._get name = some (place name 0 pairs) := by
  rcases h.attrlist_eq with hmem | ⟨hmem, rfl⟩
  · rw [_get, hmem]
    exact getLoop_flat name 0 h.words
  · rw [_get, hmem]
    rfl

theorem Layout.block_eq {p : Str × Str} (h : Layout a (ps ++ p :: qs)) :
    a.attrlist = some (flat ps ++ (entry p ++ (flat qs ++ [0]))) := by
  rcases h.attrlist_eq with hmem | ⟨-, hnil⟩
  · rw [hmem, flat_append, flat_cons, append_assoc, append_assoc]
  · exact absurd hnil (by simp)

theorem drop_flat (ps qs : List (Str × Str)) (name value : Str) :
    (flat ps ++ (entry (name, value) ++ (flat qs ++ [0]))).drop
      ((flat ps).length + name.length + 1) = value ++ 0 :: (flat qs ++ [0]) := by
  rw [Nat.add_assoc, drop_length_add_append, entry, append_assoc, ← drop_drop,
    drop_left, cons_append, append_assoc]
  rfl

theorem exists_split (h : name ∈ pairs.map Prod.fst) (hdistinct : (pairs.map Prod.fst).Nodup) :
    ∃ ps value qs, pairs = ps ++ (name, value) :: qs ∧
      name ∉ ps.map Prod.fst ∧ name ∉ qs.map Prod.fst := by
  obtain ⟨⟨_, value⟩, hmem, rfl⟩ := mem_map.mp h
  obtain ⟨ps, qs, rfl⟩ := append_of_mem hmem
  refine ⟨ps, value, qs, rfl, ?_⟩
  rw [map_append, map_cons, nodup_middle, nodup_cons, mem_append, not_or] at hdistinct
  exact hdistinct.1

/-! ## Removing -/

theorem int_eq (n : Int) : int n =
    if n % 4294967296 < 2147483648 then n % 4294967296 else n % 4294967296 - 4294967296 := rfl

theorem int_spec (n : Int) :
    ∃ m, int n = m ∧ -2147483648 ≤ m ∧ m < 2147483648 ∧ (m - n) % 4294967296 = 0 := by
  refine ⟨_, int_eq n, ?_⟩
  split
  · omega
  · omega

theorem int_of_lt {n : Nat} (h : n < 2 ^ 31) : int n = n := by
  rw [int_eq]
  omega

theorem uint_eq (n : Int) : (uint n : Int) = n % 4294967296 := by
  rw [uint]
  omega

theorem uint_of_lt {n : Nat} (h : n < 2 ^ 32) : uint n = n := by
  rw [uint]
  omega

theorem length_realloc (junk : Nat → Byte) (mem : Option Str) (size : Nat) :
    (realloc junk mem size).length = size := by
  rw [realloc, length_append, length_take, length_map, length_range']
  omega

theorem realloc_of_le (junk : Nat → Byte) {mem : Str} {size : Nat} (h : size ≤ mem.length) :
    realloc junk (some mem) size = mem.take size := by
  rw [realloc, getD_some, Nat.sub_eq_zero_of_le h]
  exact append_nil _

/-- The attribute and what is behind it are short enough to be removed. -/
structure Removable (name value : Str) (behind : List (Str × Str)) : Prop where
  entry_lt : name.length + value.length + 2 < 2 ^ 31
  behind_lt : (flat behind).length + 1 < 2 ^ 31

theorem memmove_behind {A E B : Str} (C : Str) {n : Nat} (hn : n = A.length + B.length) :
    memmove (A ++ (E ++ B)) A.length (A.length + E.length) B.length =
        some (A ++ B ++ (E ++ B).drop B.length) ∧ (A ++ B ++ C).take n = A ++ B := by
  constructor
  · have hlen : (A ++ (E ++ B)).length = A.length + (E.length + B.length) := by
      rw [length_append, length_append]
    have hslice : slice (A ++ (E ++ B)) (A.length + E.length) B.length = B := by
      rw [slice, drop_length_add_append, drop_left, take_length]
    rw [memmove, if_pos (by omega)]
    have hdst : (A.length : Int).toNat = A.length := rfl
    have hsrc : ((A.length : Int) + E.length).toNat = A.length + E.length := by omega
    rw [hdst, hsrc, move, hslice, blit, take_left, drop_length_add_append]
  · rw [hn, ← length_append, take_left]

theorem remove_spec (junk : Nat → Byte) (h : Layout a (ps ++ (name, value) :: qs)) :
    (Removable name value qs → remove junk a name ((flat ps).length + name.length + 1) =
      some ⟨some (flat (ps ++ qs) ++ [0]), (flat (ps ++ qs)).length⟩) ∧ (¬ Removable name value qs →
      remove junk a name ((flat ps).length + name.length + 1) = none) := by
  have hlen := h.attrlen_eq
  have hlt := h.attrlen_lt
  have hvalue : Word value := (h.words (name, value) (by simp)).2
  have hmem := h.block_eq
  have hdrop := drop_flat ps qs name value
  have hentry : (entry (name, value)).length = name.length + value.length + 2 := length_entry _
  have htotal : a.attrlen = (flat ps).length + (name.length + value.length + 2) +
      (flat qs).length := by
    rw [hlen, flat_append, flat_cons, length_append, length_append, hentry]
    omega
  have hblock : (flat ps ++ (entry (name, value) ++ (flat qs ++ [0]))).length = a.attrlen + 1 := by
    simp only [length_append, length_singleton]
    omega
  have hbehind : (flat qs ++ [0]).length = (flat qs).length + 1 := length_append
  rw [remove, hmem, bind_some, hdrop, cstr_append hvalue.nul_free, bind_some]
  dsimp only
  constructor
  · rintro ⟨hshort, hbehind_lt⟩
    have hwhole : (flat (ps ++ qs)).length = (flat ps).length + (flat qs).length := by
      rw [flat_append, length_append]
    have hlast : uint ((a.attrlen : Int) - (entry (name, value)).length) =
        (flat (ps ++ qs)).length := by
      have hcast : (a.attrlen : Int) - (entry (name, value)).length =
          (flat (ps ++ qs)).length := by omega
      rw [hcast, uint_of_lt (by omega)]
    have hsize : uint (((flat (ps ++ qs)).length : Int) + 1) = (flat (ps ++ qs)).length + 1 :=
      uint_of_lt (n := (flat (ps ++ qs)).length + 1) (by omega)
    obtain ⟨hmoved, hkept⟩ := memmove_behind (A := flat ps) (E := entry (name, value))
      (B := flat qs ++ [0]) ((entry (name, value) ++ (flat qs ++ [0])).drop (flat qs ++ [0]).length)
      (n := (flat (ps ++ qs)).length + 1) (by omega)
    have hfit : (flat (ps ++ qs)).length + 1 ≤ (flat ps ++ (flat qs ++ ([0] : Str)) ++
        (entry (name, value) ++ (flat qs ++ ([0] : Str))).drop (flat qs ++ ([0] : Str)).length).length := by
      rw [length_append, length_append]
      omega
    have hname : int name.length = name.length := int_of_lt (by omega)
    have hremove : int ((name.length : Int) + value.length + 2) =
        (entry (name, value)).length := by
      have hcast : (name.length : Int) + value.length + 2 =
          ((name.length + value.length + 2 : Nat) : Int) := by omega
      rw [hcast, int_of_lt hshort, hentry]
    have hfrom : (((flat ps).length + name.length + 1 : Nat) : Int) - (name.length + 1) =
        (flat ps).length := by omega
    have hend : int ((a.attrlen : Int) - (flat ps).length - (entry (name, value)).length + 1) =
        (flat qs ++ [0]).length := by
      have hcast : (a.attrlen : Int) - (flat ps).length - (entry (name, value)).length + 1 =
          ((flat qs ++ [0]).length : Int) := by omega
      rw [hcast, int_of_lt (by omega)]
    rw [hname, hremove, hfrom, hend, size_of_int_natCast (by omega), hmoved, hlast, map_some,
      hsize, realloc_of_le _ hfit, hkept, flat_append, append_assoc]
  · intro hlong
    obtain ⟨namelen, hname, hname_ge, hname_lt, hname_mod⟩ := int_spec name.length
    rw [hname]
    clear hname
    obtain ⟨toremove, hremove, hremove_ge, hremove_lt, hremove_mod⟩ :=
      int_spec (namelen + value.length + 2)
    rw [hremove]
    clear hremove
    obtain ⟨endpart, hend, hend_ge, hend_lt, hend_mod⟩ := int_spec
      (a.attrlen - (((flat ps).length + name.length + 1 : Nat) - (namelen + 1)) - toremove + 1)
    rw [hend]
    clear hend
    rw [memmove, if_neg, map_none]
    rintro ⟨hdst, hdst_le, hsrc, hsrc_le⟩
    rw [hblock] at hdst_le hsrc_le
    have hsize : 0 ≤ endpart ∧ (size_of_int endpart : Int) = endpart ∨
        endpart < 0 ∧ 2 ^ 32 ≤ size_of_int endpart := by
      rw [size_of_int]
      omega
    generalize size_of_int endpart = size at hsize hdst_le hsrc_le
    -- otherwise the offsets wrap, and the regions leave the block
    exact hlong ⟨by omega, by omega⟩

/-! ## Appending -/

/-- The name is short enough, and the block with the attribute and the last NUL. -/
structure Appendable (attrlen : Nat) (name value : Str) : Prop where
  name_lt : name.length < 2 ^ 31
  total_lt : attrlen + (name.length + value.length + 2) + 1 < 2 ^ 32

theorem Layout.realloc_eq (h : Layout a pairs) (junk : Nat → Byte) {n : Nat} (hn : a.attrlen ≤ n) :
    (realloc junk a.attrlist n).take a.attrlen = flat pairs := by
  rcases h.attrlist_eq with hmem | ⟨hmem, rfl⟩
  · have hflat : (((flat pairs ++ [0]).take n).take a.attrlen) = flat pairs := by
      rw [take_take, Nat.min_eq_left hn, h.attrlen_eq, take_left]
    have hlen : a.attrlen ≤ ((flat pairs ++ [0]).take n).length := by
      rw [length_take, length_append, ← h.attrlen_eq, length_singleton]
      omega
    rw [hmem, realloc, getD_some, take_append_of_le_length hlen, hflat]
  · have hzero : a.attrlen = 0 := h.attrlen_eq
    rw [hzero]
    rfl

theorem append_eq (junk : Nat → Byte) (h : Layout a pairs)
    (happend : Appendable a.attrlen name value) :
    append junk a name value = some ⟨some (flat (pairs ++ [(name, value)]) ++ [0]),
      (flat (pairs ++ [(name, value)])).length⟩ := by
  obtain ⟨hname, htotal⟩ := happend
  have hentry : (entry (name, value)).length = name.length + value.length + 2 := length_entry _
  have hflat : flat (pairs ++ [(name, value)]) = flat pairs ++ entry (name, value) := by
    rw [flat_append, flat_cons]
    exact congrArg _ (append_nil _)
  have hlen := h.attrlen_eq
  have hlast : uint ((a.attrlen : Int) + (entry (name, value)).length) =
      a.attrlen + (entry (name, value)).length :=
    uint_of_lt (n := a.attrlen + (entry (name, value)).length) (by omega)
  have hsize : uint ((a.attrlen : Int) + (entry (name, value)).length + 1) =
      a.attrlen + (entry (name, value)).length + 1 :=
    uint_of_lt (n := a.attrlen + (entry (name, value)).length + 1) (by omega)
  have hadd : uint ((name.length : Int) + value.length + 2) = (entry (name, value)).length := by
    rw [hentry]
    exact uint_of_lt (n := name.length + value.length + 2) (by omega)
  have hmem := length_realloc junk a.attrlist (a.attrlen + (entry (name, value)).length + 1)
  have hfront := h.realloc_eq junk (n := a.attrlen + (entry (name, value)).length + 1) (by omega)
  rw [append, int_of_lt hname]
  rw [hadd, hsize, hlast]
  generalize realloc junk a.attrlist (a.attrlen + (entry (name, value)).length + 1) = mem at *
  have hfirst : strcpy mem a.attrlen name = some (blit mem a.attrlen (name ++ [0])) :=
    if_pos ⟨by omega, by omega⟩
  have hwritten : (blit mem a.attrlen (name ++ [0])).length = mem.length :=
    length_blit (by rw [length_append, length_singleton]; omega)
  have hsecond : strcpy (blit mem a.attrlen (name ++ [0])) ((a.attrlen : Int) + name.length + 1) value =
      some (blit mem a.attrlen (entry (name, value))) := by
    have hdst : ((a.attrlen : Int) + name.length + 1).toNat = a.attrlen + (name ++ [0]).length := by
      rw [length_append, length_singleton]
      omega
    have hboth : name ++ [0] ++ (value ++ [0]) = entry (name, value) := by
      rw [entry, append_assoc]
      rfl
    rw [strcpy, if_pos ⟨by omega, by omega⟩, hdst, blit_append, hboth]
    rw [length_append, length_singleton]
    omega
  rw [hfirst, bind_some, hsecond, bind_some]
  have hblock : blit mem a.attrlen (entry (name, value)) =
      flat (pairs ++ [(name, value)]) ++ mem.drop (a.attrlen + (entry (name, value)).length) := by
    rw [blit, hfront, hflat]
  have hlength : (flat (pairs ++ [(name, value)])).length =
      a.attrlen + (entry (name, value)).length := by
    rw [hflat, length_append, ← hlen]
  obtain ⟨c, hc⟩ : ∃ c, mem.drop (a.attrlen + (entry (name, value)).length) = [c] := by
    apply length_eq_one_iff.mp
    rw [length_drop]
    omega
  rw [hblock, hc, if_pos (by rw [length_append, hlength, length_singleton]; omega),
    ← hlength, set_append_right _ _ (Nat.le_refl _), Nat.sub_self]
  rfl

theorem append_eq_none (junk : Nat → Byte) (h : ¬ Appendable a.attrlen name value) :
    append junk a name value = none := by
  obtain ⟨namelen, hname, hname_ge, hname_lt, hname_mod⟩ := int_spec name.length
  rw [append, hname]
  clear hname
  have htotal := uint_eq (namelen + value.length + 2)
  generalize uint (namelen + value.length + 2) = totallen at htotal ⊢
  have hsize := uint_eq (a.attrlen + totallen + 1)
  have hmem := length_realloc junk a.attrlist (uint (a.attrlen + totallen + 1))
  generalize realloc junk a.attrlist (uint (a.attrlen + totallen + 1)) = mem at hmem ⊢
  generalize uint (a.attrlen + totallen + 1) = size at hsize hmem
  by_cases hfirst : (0 : Int) ≤ a.attrlen ∧ (a.attrlen : Int) + (name.length + 1 : Nat) ≤ mem.length
  · have hwritten : (blit mem a.attrlen (name ++ [0])).length = mem.length :=
      length_blit (by rw [length_append, length_singleton]; omega)
    have hsecond : strcpy (blit mem a.attrlen (name ++ [0])) (a.attrlen + namelen + 1) value = none := by
      rw [strcpy, if_neg]
      rintro ⟨hdst, hdst_le⟩
      rw [hwritten] at hdst_le
      exact h ⟨by omega, by omega⟩
    rw [strcpy, if_pos hfirst, bind_some, Int.toNat_natCast, hsecond]
    rfl
  · rw [strcpy, if_neg hfirst]
    rfl

/-! ## One call -/

structure Call where
  name : WvString
  value : WvString
  name_nul_free : 0 ∉ name.getD []
  value_nul_free : 0 ∉ value.getD []

def without (name : Str) (pairs : List (Str × Str)) : List (Str × Str) :=
  pairs.filter fun p => p.1 ≠ name

/-- What `set` does to the attributes: a changed one goes to the end. -/
def refSet (pairs : List (Str × Str)) (c : Call) : List (Str × Str) :=
  if c.name.not then pairs
  else if c.value.not then without (c.name.getD []) pairs
  else without (c.name.getD []) pairs ++ [(c.name.getD [], c.value.getD [])]

def RemovableFrom (pairs : List (Str × Str)) (name : Str) : Prop :=
  ∀ ps value qs, pairs = ps ++ (name, value) :: qs → Removable name value qs

/-- What a call removes, what is behind it and what it appends are short enough. -/
def Short (pairs : List (Str × Str)) (c : Call) : Prop :=
  c.name.not = false → RemovableFrom pairs (c.name.getD []) ∧ (c.value.not = false →
      Appendable (flat (without (c.name.getD []) pairs)).length (c.name.getD []) (c.value.getD []))

theorem without_eq_self (h : name ∉ pairs.map Prod.fst) : without name pairs = pairs := by
  refine filter_eq_self.mpr (fun p hp => decide_eq_true ?_)
  rintro rfl
  exact h (mem_map_of_mem hp)

theorem without_split (hps : name ∉ ps.map Prod.fst) (hqs : name ∉ qs.map Prod.fst) :
    without name (ps ++ (name, value) :: qs) = ps ++ qs := by
  have hmid : without name ((name, value) :: qs) = without name qs :=
    filter_cons_of_neg (by simp)
  rw [without, filter_append]
  exact congrArg₂ (· ++ ·) (without_eq_self hps) (hmid.trans (without_eq_self hqs))

theorem not_mem_without (name : Str) (pairs : List (Str × Str)) :
    name ∉ (without name pairs).map Prod.fst := by
  intro hmem
  obtain ⟨p, hp, rfl⟩ := mem_map.mp hmem
  exact of_decide_eq_true (mem_filter.mp hp).2 rfl

theorem without_sublist (name : Str) (pairs : List (Str × Str)) :
    (without name pairs).Sublist pairs :=
  filter_sublist

theorem length_flat_sublist (h : ps.Sublist qs) : (flat ps).length ≤ (flat qs).length :=
  (h.flatMap entry).length_le

theorem word_of_not {s : WvString} (hnot : s.not = false) (hnul : 0 ∉ s.getD []) :
    Word (s.getD []) := by
  refine ⟨fun hnil => ?_, hnul⟩
  rw [WvString.not_eq_true.mpr hnil] at hnot
  contradiction

theorem removed_spec (junk : Nat → Byte) (name : Str) (h : Layout a pairs) :
    ∃ exists_, a._get name = some exists_ ∧
      (RemovableFrom pairs name → ∃ a', exists_.elim (some a) (a.remove junk name) = some a' ∧
        Layout a' (without name pairs)) ∧
      (¬ RemovableFrom pairs name → exists_.elim (some a) (a.remove junk name) = none) := by
  refine ⟨_, h.get_place name, ?_⟩
  by_cases hmem : name ∈ pairs.map Prod.fst
  · obtain ⟨ps, value, qs, rfl, hps, hqs⟩ := exists_split hmem h.distinct
    have hfound := place_append hps value qs 0
    rw [Nat.zero_add] at hfound
    rw [hfound]
    obtain ⟨hremoved, hnone⟩ := remove_spec junk h
    constructor
    · intro hshort
      refine ⟨_, hremoved (hshort ps value qs rfl), ?_⟩
      have hsub := without_sublist name (ps ++ (name, value) :: qs)
      have hle := length_flat_sublist hsub
      rw [without_split hps hqs] at hsub hle ⊢
      exact
        { attrlen_eq := rfl
          attrlen_lt := by
            have hlt := h.attrlen_lt
            rw [h.attrlen_eq] at hlt
            exact Nat.lt_of_le_of_lt (Nat.succ_le_succ hle) hlt
          attrlist_eq := Or.inl rfl
          words := fun p hp => h.words p (hsub.subset hp)
          distinct := (hsub.map Prod.fst).nodup h.distinct }
    · intro hlong
      refine hnone (fun hshort => hlong ?_)
      intro ps' value' qs' heq
      have hnot : ∀ {l : List (Str × Str)}, name ∉ l.map Prod.fst → (name, value') ∉ l :=
        fun hl hin => hl (mem_map_of_mem hin)
      obtain ⟨-, hvalue, rfl⟩ := (append_cons_inj_of_notMem (hnot hps) (hnot hqs)).mp heq
      obtain ⟨-, rfl⟩ := Prod.mk.inj hvalue
      exact hshort
  · rw [place_eq_none hmem]
    refine ⟨fun _ => ⟨a, rfl, (without_eq_self hmem).symm ▸ h⟩, fun hlong => ?_⟩
    refine absurd ?_ hlong
    rintro ps value qs rfl
    exact absurd (by simp) hmem

theorem Layout.append (h : Layout a pairs) (hname : Word name) (hvalue : Word value)
    (hfresh : name ∉ pairs.map Prod.fst) (happend : Appendable a.attrlen name value) :
    Layout ⟨some (flat (pairs ++ [(name, value)]) ++ [0]), (flat (pairs ++ [(name, value)])).length⟩
      (pairs ++ [(name, value)]) where
  attrlen_eq := rfl
  attrlen_lt := by
    have hlt := happend.total_lt
    rw [h.attrlen_eq] at hlt
    have hentry : (flat [(name, value)]).length = name.length + value.length + 2 :=
      (congrArg length (append_nil _)).trans (length_entry _)
    rw [flat_append, length_append, hentry]
    exact hlt
  attrlist_eq := Or.inl rfl
  words := fun p hp => (mem_append.mp hp).elim (h.words p)
    (fun hp => mem_singleton.mp hp ▸ ⟨hname, hvalue⟩)
  distinct := by
    rw [map_append, nodup_append_comm]
    exact nodup_cons.mpr ⟨hfresh, h.distinct⟩

theorem set_spec (junk : Nat → Byte) (c : Call) (h : Layout a pairs) :
    (Short pairs c → ∃ a', a.set junk c.name c.value = some a' ∧ Layout a' (refSet pairs c)) ∧
    (¬ Short pairs c → a.set junk c.name c.value = none) := by
  rw [refSet, set]
  by_cases hname : c.name.not
  · rw [if_pos hname, if_pos hname]
    refine ⟨fun _ => ⟨a, rfl, h⟩, fun hlong => absurd (fun hnot => ?_) hlong⟩
    rw [hname] at hnot
    contradiction
  · rw [if_neg hname, if_neg hname]
    have hname : c.name.not = false := Bool.eq_false_of_not_eq_true hname
    obtain ⟨exists_, hget, hshort, hlong⟩ := removed_spec junk (c.name.getD []) h
    rw [hget, bind_some]
    by_cases hremovable : RemovableFrom pairs (c.name.getD [])
    · obtain ⟨a', hremoved, hlayout⟩ := hshort hremovable
      rw [hremoved, bind_some]
      by_cases hvalue : c.value.not
      · rw [if_pos hvalue, if_pos hvalue]
        refine ⟨fun _ => ⟨a', rfl, hlayout⟩, fun hlong => absurd (fun _ => ⟨hremovable, ?_⟩) hlong⟩
        intro hnot
        rw [hvalue] at hnot
        contradiction
      · rw [if_neg hvalue, if_neg hvalue]
        have hvalue : c.value.not = false := Bool.eq_false_of_not_eq_true hvalue
        constructor
        · intro hshort
          have happend := (hshort hname).2 hvalue
          rw [← hlayout.attrlen_eq] at happend
          exact ⟨_, append_eq junk hlayout happend,
            hlayout.append (word_of_not hname c.name_nul_free) (word_of_not hvalue c.value_nul_free)
              (not_mem_without _ _) happend⟩
        · intro hlong
          refine append_eq_none junk (fun happend => hlong (fun _ => ⟨hremovable, fun _ => ?_⟩))
          rw [← hlayout.attrlen_eq]
          exact happend
    · rw [hlong hremovable]
      exact ⟨fun hshort => absurd (hshort hname).1 hremovable, fun _ => rfl⟩

/-! ## Looking up what was set -/

theorem Layout.get_eq (h : Layout a pairs) (name : Str) :
    a.get name = some (pairs.lookup name) := by
  rw [get, h.get_place]
  by_cases hmem : name ∈ pairs.map Prod.fst
  · obtain ⟨ps, value, qs, rfl, hps, hqs⟩ := exists_split hmem h.distinct
    have hvalue : Word value := (h.words (name, value) (by simp)).2
    have hplace := place_append hps value qs 0
    rw [Nat.zero_add] at hplace
    rw [hplace, h.block_eq, bind_some, elim_some, getD_some, drop_flat,
      cstr_append hvalue.nul_free, lookup_append, Lib.lookup_of_not_mem hps, none_or,
      lookup_cons_self]
    rfl
  · rw [place_eq_none hmem, Lib.lookup_of_not_mem hmem]
    rfl

theorem lookup_without (name other : Str) (pairs : List (Str × Str)) :
    (without other pairs).lookup name = if other = name then none else pairs.lookup name := by
  rw [without, Lib.lookup_filter_ne]
  exact if_congr eq_comm rfl rfl

theorem lookup_refSet (pairs : List (Str × Str)) (c : Call) (hname : name ≠ []) :
    (refSet pairs c).lookup name =
      if c.name.getD [] = name then (if c.value.not then none else some (c.value.getD []))
      else pairs.lookup name := by
  rw [refSet]
  by_cases hnot : c.name.not
  · have hne : c.name.getD [] ≠ name := by
      rw [WvString.not_eq_true.mp hnot]
      exact Ne.symm hname
    rw [if_pos hnot, if_neg hne]
  · rw [if_neg hnot]
    by_cases hvalue : c.value.not
    · rw [if_pos hvalue, if_pos hvalue, lookup_without]
    · rw [if_neg hvalue, if_neg hvalue, lookup_append, lookup_without, lookup_singleton]
      by_cases heq : c.name.getD [] = name
      · rw [if_pos heq, if_pos heq, heq, beq_self_eq_true, if_pos rfl, none_or]
      · rw [if_neg heq, if_neg heq, beq_false_of_ne (Ne.symm heq), if_neg Bool.false_ne_true,
          or_none]

/-! ## Runs -/

def run (junk : Nat → Byte) (a : WvAttrs) : List Call → Option WvAttrs
  | [] => some a
  | c :: calls => (a.set junk c.name c.value).bind fun a => run junk a calls

/-- The value of the last call with this name, if it is not empty. -/
def lastSet (calls : List Call) (name : Str) : WvString :=
  (calls.reverse.find? fun c => c.name.getD [] == name).bind fun c =>
    if c.value.not then none else some (c.value.getD [])

/-- The calls up to any of them stay in the block, leave it with attributes only, and a name has
the value that it was given last. -/
def Right (junk : Nat → Byte) (calls : List Call) : Prop :=
  ∀ before, before <+: calls → ∃ a pairs, run junk empty before = some a ∧ Layout a pairs ∧
    ∀ name ≠ [], a.get name = some (lastSet before name)

/-- Every call is short enough for what the calls before it have left. -/
def Small (pairs : List (Str × Str)) : List Call → Prop
  | [] => True
  | c :: calls => Short pairs c ∧ Small (refSet pairs c) calls

theorem layout_empty : Layout empty [] where
  attrlen_eq := rfl
  attrlen_lt := by decide
  attrlist_eq := Or.inr ⟨rfl, rfl⟩
  words := forall_mem_nil _
  distinct := nodup_nil

theorem run_spec (junk : Nat → Byte) {a : WvAttrs} {pairs : List (Str × Str)} (calls : List Call)
    (h : Layout a pairs) :
    (Small pairs calls → ∃ a', run junk a calls = some a' ∧ Layout a' (calls.foldl refSet pairs)) ∧
    (¬ Small pairs calls → run junk a calls = none) := by
  induction calls generalizing a pairs with
  | nil => exact ⟨fun _ => ⟨a, rfl, h⟩, fun hlong => absurd trivial hlong⟩
  | cons c calls ih =>
    obtain ⟨hshort, hlong⟩ := set_spec junk c h
    by_cases hc : Short pairs c
    · obtain ⟨a', hset, hlayout⟩ := hshort hc
      rw [run, hset, bind_some]
      exact ⟨fun hsmall => (ih hlayout).1 hsmall.2,
        fun hbig => (ih hlayout).2 (fun hsmall => hbig ⟨hc, hsmall⟩)⟩
    · rw [run, hlong hc]
      exact ⟨fun hsmall => absurd hsmall.1 hc, fun _ => rfl⟩

theorem Small.of_prefix {before calls : List Call} (h : Small pairs calls)
    (hbefore : before <+: calls) : Small pairs before := by
  induction before generalizing pairs calls with
  | nil => trivial
  | cons c before ih =>
    obtain ⟨rest, rfl⟩ := hbefore
    exact ⟨h.1, ih h.2 (prefix_append before rest)⟩

theorem lookup_run (calls : List Call) (hname : name ≠ []) :
    (calls.foldl refSet []).lookup name = lastSet calls name := by
  induction calls using reverseRecOn with
  | nil => rfl
  | append_singleton calls c ih =>
    rw [foldl_append, foldl_cons, foldl_nil, lookup_refSet _ _ hname, lastSet,
      reverse_append, reverse_singleton, singleton_append, find?_cons]
    by_cases hc : c.name.getD [] = name
    · rw [if_pos hc, hc, beq_self_eq_true]
      rfl
    · rw [if_neg hc, beq_false_of_ne hc, ih]
      rfl

theorem right_iff_small (junk : Nat → Byte) (calls : List Call) : Right junk calls ↔ Small [] calls := by
  constructor
  · intro hright
    obtain ⟨a, -, hrun, -⟩ := hright calls (prefix_refl calls)
    by_contra hbig
    rw [(run_spec junk calls layout_empty).2 hbig] at hrun
    contradiction
  · intro hsmall before hprefix
    obtain ⟨a, hrun, hlayout⟩ :=
      (run_spec junk before layout_empty).1 (hsmall.of_prefix hprefix)
    refine ⟨a, _, hrun, hlayout, fun name hname => ?_⟩
    rw [hlayout.get_eq, lookup_run before hname]

def longCall : Call where
  name := some [97]
  value := some (List.replicate (2 ^ 32) 120)
  name_nul_free := by decide
  value_nul_free := fun hmem => absurd (List.eq_of_mem_replicate hmem) (by decide)

/-- The sum of the lengths wraps, and the value is written behind the block. -/
theorem not_right_long : ¬ Right (fun _ => 0) [longCall] := by
  intro hright
  obtain ⟨a, -, hrun, -⟩ := hright [longCall] (prefix_refl _)
  have hlength : (longCall.value.getD []).length = 2 ^ 32 := length_replicate
  have hbig : ¬ Small [] [longCall] := by
    rintro ⟨hshort, -⟩
    have hnot : longCall.value.not = false := by
      refine Bool.eq_false_of_not_eq_true (fun hnot => ?_)
      rw [WvString.not_eq_true.mp hnot, length_nil] at hlength
      omega
    have htotal := ((hshort rfl).2 hnot).total_lt
    omega
  rw [(run_spec _ [longCall] layout_empty).2 hbig] at hrun
  contradiction

end WvAttrs

end WvStreams
