import WvStreams.Strings.WvString

/-!
# Character sets

A `WvStringMask` is a set of characters and the first character it was given.
-/

namespace WvStreams

structure WvStringMask where
  set : Byte → Bool
  first : Byte

namespace WvStringMask

def ofString (s : WvString) : WvStringMask :=
  ⟨fun c => (s.getD []).contains c, (s.getD []).headD 0⟩

def ofChar (c : Byte) : WvStringMask := ⟨fun c' => c' == c, c⟩

end WvStringMask

end WvStreams
