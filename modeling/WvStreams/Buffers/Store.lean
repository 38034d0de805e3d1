import WvStreams.Lib.Machine
import WvStreams.Strings.WvString

/-!
# Buffers

What the buffer stores have in common: the counts of `WvBufStore`, and the queue with a history
that a store is (`Queue`). A pointer into a store is the place that it points to, and the
client uses it before the next call. Counts are natural numbers: those that the source narrows to
`int`, as offsets, are less than 2^31 there.
-/

namespace WvStreams

namespace WvBufStore

/-- `peekable`, for a store that overrides neither it nor its counts. -/
def peekable (used ungettable : Nat) (offset : Int) : Nat :=
  if offset = 0 then used
  else if offset < 0 then
    if (-offset).toNat ≤ ungettable then (-offset).toNat + used else 0
  else ((used : Int) - offset).toNat

end WvBufStore

/-- The bytes that can be given back, the last one that was consumed at the end, and the bytes
that are still to be read. -/
structure Queue where
  history : Str
  content : Str
  deriving DecidableEq

namespace Queue

def get (q : Queue) (count : Nat) : Queue :=
  ⟨q.history ++ q.content.take count, q.content.drop count⟩

/-- The last bytes that were consumed are to be read again. -/
def unget (q : Queue) (count : Nat) : Queue :=
  ⟨q.history.take (q.history.length - count), q.history.drop (q.history.length - count) ++ q.content⟩

def put (q : Queue) (bytes : Str) : Queue := ⟨q.history, q.content ++ bytes⟩

def unalloc (q : Queue) (count : Nat) : Queue :=
  ⟨q.history, q.content.take (q.content.length - count)⟩

def forget (q : Queue) : Queue := ⟨[], q.content⟩

def place (q : Queue) (offset : Int) : Nat := (q.history.length + offset).toNat

def peek (q : Queue) (offset : Int) (count : Nat) : Str :=
  ((q.history ++ q.content).drop (q.place offset)).take count

def peekable (q : Queue) (offset : Int) : Nat :=
  WvBufStore.peekable q.content.length q.history.length offset

def write (q : Queue) (offset : Int) (bytes : Str) : Queue :=
  let all := (q.history ++ q.content).take (q.place offset) ++ bytes ++
    (q.history ++ q.content).drop (q.place offset + bytes.length)
  ⟨all.take q.history.length, all.drop q.history.length⟩

theorem place_le {q : Queue} {offset : Int} {count : Nat} (hcount : count ≠ 0)
    (h : count ≤ q.peekable offset) :
    0 ≤ q.history.length + offset ∧
      q.place offset + count ≤ q.history.length + q.content.length := by
  rw [peekable, WvBufStore.peekable] at h
  rw [place]
  split at h
  · omega
  · split at h
    · split at h <;> omega
    · omega

theorem le_peekable {q : Queue} {offset : Int} {count : Nat} (hlow : 0 ≤ q.history.length + offset)
    (hhigh : q.place offset + count ≤ q.history.length + q.content.length) :
    count ≤ q.peekable offset := by
  rw [place] at hhigh
  rw [peekable, WvBufStore.peekable]
  split
  · omega
  · split
    · split <;> omega
    · omega

end Queue

end WvStreams
