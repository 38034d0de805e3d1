import WvStreams.Strings.StrUtils
import WvStreams.UniConf.Key

/-!
# Numbers in values

A generator reads a number in the base that its prefix tells, and takes some words for 0 and 1.
-/

namespace WvStreams

open Lib

/-- The value of a digit in any base; 36 for all that is no digit. -/
def digit (c : Byte) : Nat :=
  if 48 ≤ c ∧ c ≤ 57 then c.toNat - 48
  else if 65 ≤ c ∧ c ≤ 90 then c.toNat - 65 + 10
  else if 97 ≤ c ∧ c ≤ 122 then c.toNat - 97 + 10
  else 36

/-- The prefix says the base if that is given as 0. -/
def strtolBase : Str → Nat × Str
  | 48 :: x :: d :: s =>
    if (x = 120 ∨ x = 88) ∧ digit d < 16 then (16, d :: s) else (8, 48 :: x :: d :: s)
  | 48 :: s => (8, 48 :: s)
  | s => (10, s)

/-- `strtol(s, &end, 0)` for a `long` of 64 bits; none if there is no number at the start. -/
def strtol (s : Str) : Option Int :=
  let s := s.dropWhile isspace
  let negative := s.head? = some 45
  let s := if s.head? = some 45 ∨ s.head? = some 43 then s.tail else s
  let (base, s) := strtolBase s
  let digits := s.takeWhile fun c => digit c < base
  if digits = [] then none
  else
    let num : Int := digits.foldl (fun num c => num * base + digit c) 0
    some (if negative then max (-num) (-2 ^ 63) else min num (2 ^ 63 - 1))

def truestrs : List Str := [bytes "true", bytes "yes", bytes "on", bytes "enabled"]

def falsestrs : List Str := [bytes "false", bytes "no", bytes "off", bytes "disabled"]

def str2int (value : WvString) (defvalue : Int) : Int :=
  match value with
  | none => defvalue
  | some s =>
    match strtol s with
    | some num => num.bmod (2 ^ 32)
    | none =>
      if (fold s : Segment) ∈ truestrs then 1
      else if (fold s : Segment) ∈ falsestrs then 0
      else defvalue

end WvStreams
