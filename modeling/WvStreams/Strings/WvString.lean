import Mathlib.Data.UInt

/-!
# Strings

A C string without its terminating NUL is the list of its bytes; a `WvString` is such a
string or null. Two `WvString`s are equal if both are null or both are strings with the
same bytes, so equality of the model is `WvString::operator==`.
-/

namespace WvStreams

section Members

-- what is said of the members is decided for these, and not for all bytes
variable {α : Type} (p : α → Prop) [DecidablePred p]

instance (priority := 2000) decidableForallMem (l : List α) : Decidable (∀ a ∈ l, p a) :=
  List.decidableBAll p l

instance (priority := 2000) decidableForallMemOption (o : Option α) : Decidable (∀ a ∈ o, p a) :=
  Option.decidableForallMem o

end Members

abbrev Byte := UInt8

/-- The bytes of a C string, without the terminating NUL. -/
abbrev Str := List Byte

/-- `none` is the null string. -/
abbrev WvString := Option Str

def bytes (s : String) : Str := s.toList.map fun c => c.toUInt8

namespace WvString

/-- `WvString::operator!`: null or empty. -/
def not (s : WvString) : Bool := s.getD [] == []

theorem not_eq_true {s : WvString} : not s = true ↔ s.getD [] = [] := by
  simp [not]

@[simp] theorem not_none : not none = true := rfl

@[simp] theorem not_some (s : Str) : not (some s) = (s == []) := rfl

end WvString

/-- `tolower` in the C locale. -/
def tolower (c : Byte) : Byte := if 65 ≤ c ∧ c ≤ 90 then c + 32 else c

end WvStreams
