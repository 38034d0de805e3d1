import WvStreams.Buffers.CircularBuf
import WvStreams.Buffers.Transfer

/-!
# `WvLinkedBufferStore` and `WvDynBufStore`

A linked buffer is a list of segments, each of them a circular buffer. Only the first segment
gives bytes back, and `maxungettable` says how many of them at most: the others of its history
were not the last ones to be read.
-/

namespace WvStreams

open Lib Lib.Ring List

namespace WvCircularBufStore

def peekable (s : WvCircularBufStore) (offset : Int) : Nat :=
  WvBufStore.peekable s.used s.ungettable offset

def sink : WvBufStore.Sink WvCircularBufStore where
  optallocable := optallocable
  alloc := alloc
  unalloc := unalloc
  store s buf bytes := { s with data := blit s.data buf bytes }

def source : WvBufStore.Source WvCircularBufStore where
  optgettable := optgettable
  get s count := (s.get count).map fun (s, first) => (s, slice s.data first count)

/-- `merge`, which is `basicmerge` here. -/
def merge (s instore : WvCircularBufStore) (count : Nat) :
    Option (WvCircularBufStore × WvCircularBufStore) :=
  WvBufStore.basicmerge sink source s instore count

end WvCircularBufStore

structure WvLinkedBufferStore where
  list : List WvCircularBufStore := []
  totalused : Nat := 0
  maxungettable : Nat := 0
  deriving DecidableEq

namespace WvLinkedBufferStore

def used (s : WvLinkedBufferStore) : Nat := s.totalused

def optgettable (s : WvLinkedBufferStore) : Nat :=
  ((s.list.map WvCircularBufStore.optgettable).find? (· ≠ 0)).getD 0

def ungettable (s : WvLinkedBufferStore) : Nat :=
  match s.list with
  | [] => 0
  | first :: _ => min first.ungettable s.maxungettable

def free (s : WvLinkedBufferStore) : Nat := (s.list.getLast?.map WvCircularBufStore.free).getD 0

def optallocable (s : WvLinkedBufferStore) : Nat :=
  (s.list.getLast?.map WvCircularBufStore.optallocable).getD 0

def unallocable (s : WvLinkedBufferStore) : Nat := s.totalused

def appendsubbuffer (s : WvLinkedBufferStore) (buffer : WvCircularBufStore) : WvLinkedBufferStore :=
  { s with list := s.list ++ [buffer], totalused := s.totalused + buffer.used }

def zap (_ : WvLinkedBufferStore) : WvLinkedBufferStore := {}

/-- The pointer is one into the last segment. -/
def alloc (s : WvLinkedBufferStore) (count : Nat) : Option (WvLinkedBufferStore × Nat) :=
  if count = 0 then some (s, 0)
  else
    s.list.getLast?.bind fun buf =>
      (buf.alloc count).map fun (buf, first) =>
        ({ s with list := s.list.dropLast ++ [buf], totalused := s.totalused + count }, first)

/-- The loop of `unalloc`, from the last segment on. -/
def unallocLoop (count : Nat) : List WvCircularBufStore → Option (List WvCircularBufStore)
  | [] => if count = 0 then some [] else none
  | buf :: rest =>
    if count = 0 then some (buf :: rest)
    else if count < buf.unallocable then (buf.unalloc count).map fun buf => buf :: rest
    else unallocLoop (count - buf.unallocable) rest

/-- The history is lost with the first segment. -/
def unalloc (s : WvLinkedBufferStore) (count : Nat) : Option WvLinkedBufferStore :=
  if count ≤ s.totalused then
    (unallocLoop count s.list.reverse).map fun list =>
      { list := list.reverse, totalused := s.totalused - count,
        maxungettable := if list = [] then 0 else s.maxungettable }
  else none

def unget (s : WvLinkedBufferStore) (count : Nat) : Option WvLinkedBufferStore :=
  if count = 0 then some s
  else
    match s.list with
    | [] => none
    | first :: rest =>
      if count ≤ s.maxungettable then
        (first.unget count).map fun first =>
          { list := first :: rest, totalused := s.totalused + count,
            maxungettable := s.maxungettable - count }
      else none

section Coalesce

-- the virtual call that makes a segment of a minimal size
variable (newbuffer : WvLinkedBufferStore → Nat → WvCircularBufStore)

/-- The loop of `coalesce`: the first `needed` bytes of the segments behind `buf` move into it,
and then the bytes in front of them that were unread before are skipped. -/
def coalesceLoop (buf : WvCircularBufStore) (needed mustskip : Nat) :
    List WvCircularBufStore → Option (WvCircularBufStore × List WvCircularBufStore)
  | [] => none
  | itbuf :: rest =>
    if itbuf.used = 0 then coalesceLoop buf needed mustskip rest
    else
      let chunk := min itbuf.used needed
      (buf.merge itbuf chunk).bind fun (buf, itbuf) =>
        if needed - chunk = 0 then
          (buf.get mustskip).map fun (buf, _) => (buf, itbuf :: rest)
        else coalesceLoop buf (needed - chunk) mustskip rest

/-- `coalesce` for the segment `buf` with the segments `rest` behind it: the segment that has
the bytes, and those behind it. -/
def coalesce (s : WvLinkedBufferStore) (isfirst : Bool) (buf : WvCircularBufStore)
    (rest : List WvCircularBufStore) (count : Nat) :
    Option (WvCircularBufStore × List WvCircularBufStore) :=
  if count ≤ buf.used then some (buf, rest)
  else if buf.free < count - buf.used then
    if isfirst ∧ s.totalused ≠ 0 then
      let mustskip := min buf.ungettable s.maxungettable
      (buf.unget mustskip).bind fun buf =>
        coalesceLoop (newbuffer s (count + mustskip)) (count + mustskip) mustskip (buf :: rest)
    else coalesceLoop (newbuffer s count) count 0 (buf :: rest)
  else coalesceLoop buf (count - buf.used) 0 rest

/-- The leading segments that are empty are unlinked. -/
def unlinkEmpty (s : WvLinkedBufferStore) : WvLinkedBufferStore :=
  match s.list with
  | [] => s
  | first :: _ =>
    if first.used = 0 then
      { s with list := s.list.dropWhile fun buf => buf.used = 0, maxungettable := 0 }
    else s

/-- The pointer is one into the first segment. -/
def get (s : WvLinkedBufferStore) (count : Nat) : Option (WvLinkedBufferStore × Nat) :=
  if count = 0 then some (s, 0)
  else if count ≤ s.totalused then
    let s := { s with totalused := s.totalused - count }.unlinkEmpty
    match s.list with
    | [] => none
    | buf :: rest =>
      (if buf.used < count then coalesce newbuffer s true buf rest count
        else some (buf, rest)).bind fun (buf, rest) =>
      (buf.get count).map fun (buf, first) =>
        ({ s with list := buf :: rest, maxungettable := s.maxungettable + count }, first)
  else none

end Coalesce

/-- The loop of `search`: the number of the segment, and the offset within it. -/
def searchLoop (offset : Nat) : List WvCircularBufStore → Option (Nat × Nat)
  | [] => none
  | buf :: rest =>
    if offset < buf.used then some (0, offset)
    else (searchLoop (offset - buf.used) rest).map fun (i, offset) => (i + 1, offset)

/-- None if the offset is out of bounds. -/
def search (s : WvLinkedBufferStore) (offset : Int) : Option (Nat × Int) :=
  match s.list with
  | [] => none
  | buf :: _ =>
    if offset < 0 then
      -- inside the region that can be given back
      if (-offset).toNat ≤ buf.ungettable then some (0, offset) else none
    else (searchLoop offset.toNat s.list).map fun (i, offset) => (i, (offset : Int))

def peekable (s : WvLinkedBufferStore) (offset : Int) : Nat :=
  WvBufStore.peekable s.used s.ungettable offset

/-- 0 if the offset is out of bounds; behind the content, the iterator of the source has no link. -/
def optpeekable (s : WvLinkedBufferStore) (offset : Int) : Nat :=
  match s.search offset with
  | none => 0
  | some (i, offset) => ((s.list[i]?).map fun buf => buf.peekable offset).getD 0

/-- The pointer is one into the segment of the number that is returned beside it. -/
def mutablepeek (newbuffer : WvLinkedBufferStore → Nat → WvCircularBufStore)
    (s : WvLinkedBufferStore) (offset : Int) (count : Nat) :
    Option (WvLinkedBufferStore × Nat × Nat) :=
  if count = 0 then some (s, 0, 0)
  else
    (s.search offset).bind fun (i, offset) =>
      match s.list.drop i with
      | [] => none
      | buf :: rest =>
        (if buf.peekable offset < count then coalesce newbuffer s (i = 0) buf rest count
          else some (buf, rest)).bind fun (buf, rest) =>
        (buf.mutablepeek offset count).map fun (buf, first) =>
          ({ s with list := s.list.take i ++ buf :: rest }, i, first)

def read (s : WvLinkedBufferStore) (first count : Nat) : Str :=
  match s.list with
  | [] => []
  | buf :: _ => slice buf.data first count

def store (s : WvLinkedBufferStore) (first : Nat) (bytes : Str) : WvLinkedBufferStore :=
  match s.list.getLast? with
  | none => s
  | some buf =>
    { s with list := s.list.dropLast ++ [{ buf with data := blit buf.data first bytes }] }

def readAt (s : WvLinkedBufferStore) (i first count : Nat) : Str :=
  match s.list.drop i with
  | [] => []
  | buf :: _ => slice buf.data first count

def storeAt (s : WvLinkedBufferStore) (i first : Nat) (bytes : Str) : WvLinkedBufferStore :=
  match s.list.drop i with
  | [] => s
  | buf :: rest =>
    { s with list := s.list.take i ++ { buf with data := blit buf.data first bytes } :: rest }

end WvLinkedBufferStore

/-- `roundup` to a multiple of the boundary. -/
def roundup (value boundary : Nat) : Nat :=
  if value % boundary = 0 then value else value + boundary - value % boundary

/-- A new segment of a `WvLinkedBufferStore`. -/
def WvLinkedBufferStore.newbuffer (granularity : Nat) (_ : WvLinkedBufferStore) (minsize : Nat) :
    WvCircularBufStore :=
  ⟨replicate (roundup minsize granularity) 0, 0, 0, 0⟩

def UNLIMITED_FREE_SPACE : Nat := (2 ^ 31 - 1) / 2

@[ext]
structure WvDynBufStore extends WvLinkedBufferStore where
  granularity : Nat
  minalloc : Nat
  maxalloc : Nat
  pos : 0 < granularity
  le : minalloc ≤ maxalloc

instance : DecidableEq WvDynBufStore := fun _ _ => decidable_of_iff _ WvDynBufStore.ext_iff.symm

namespace WvDynBufStore

def newbuffer (s : WvDynBufStore) (linked : WvLinkedBufferStore) (minsize : Nat) :
    WvCircularBufStore :=
  let size := linked.used
  let size := if size < minsize * 2 then minsize * 2 else size
  let size :=
    if size < s.minalloc then s.minalloc else if size > s.maxalloc then s.maxalloc else size
  let size := if size < minsize then minsize else size
  linked.newbuffer s.granularity size

def free (_ : WvDynBufStore) : Nat := UNLIMITED_FREE_SPACE

def optallocable (s : WvDynBufStore) : Nat :=
  let avail := s.toWvLinkedBufferStore.optallocable
  if avail = 0 then UNLIMITED_FREE_SPACE else avail

def relink (s : WvDynBufStore) (linked : WvLinkedBufferStore) : WvDynBufStore :=
  { s with toWvLinkedBufferStore := linked }

def get (s : WvDynBufStore) (count : Nat) : Option (WvDynBufStore × Nat) :=
  (s.toWvLinkedBufferStore.get s.newbuffer count).map fun (linked, first) =>
    (s.relink linked, first)

def alloc (s : WvDynBufStore) (count : Nat) : Option (WvDynBufStore × Nat) :=
  let linked :=
    if count > s.toWvLinkedBufferStore.free then
      s.appendsubbuffer (s.newbuffer s.toWvLinkedBufferStore count)
    else s.toWvLinkedBufferStore
  (linked.alloc count).map fun (linked, first) => (s.relink linked, first)

def unalloc (s : WvDynBufStore) (count : Nat) : Option WvDynBufStore :=
  (s.toWvLinkedBufferStore.unalloc count).map s.relink

def unget (s : WvDynBufStore) (count : Nat) : Option WvDynBufStore :=
  (s.toWvLinkedBufferStore.unget count).map s.relink

def zap (s : WvDynBufStore) : WvDynBufStore := s.relink s.toWvLinkedBufferStore.zap

def sink : WvBufStore.Sink WvDynBufStore where
  optallocable := optallocable
  alloc := alloc
  unalloc := unalloc
  store s first bytes := s.relink (s.toWvLinkedBufferStore.store first bytes)

def put (s : WvDynBufStore) (data : Str) : Option WvDynBufStore := WvBufStore.put sink s data

end WvDynBufStore

namespace WvCircularBufStore

variable {s : WvCircularBufStore} {room : Nat} {content start : Str}

theorem alloc_room {s' : WvCircularBufStore} (hs : Valid s) {count first : Nat} (hpos : 0 < count)
    (hfree : count ≤ s.free) (h : s.alloc count = some (s', first)) :
    first + count ≤ s'.xsize ∧ s'.xsize = s.xsize := by
  have hused := hs.used_le
  have hinit := hs.init_le
  have hfits : s.totalused + count ≤ s.forget.xsize := by
    have hsize : s.forget.xsize = s.xsize := rfl
    rw [free] at hfree
    omega
  have hvalid : Valid s.forget := ⟨hs.toSized.forget, hs.head_lt⟩
  obtain ⟨r, p, hensure, hensured, -, -⟩ := ensurecontiguous_forgets hvalid rfl hfits
  have hcount : count ≤ s.xsize - s.totalused := hfree
  have halloc : s.alloc count = some ({ r with
      totalused := r.totalused + count, totalinit := r.totalinit + count }, p) := by
    rw [alloc, if_pos hcount]
    show ((s.forget.ensurecontiguous s.totalused count false).map _) = _
    rw [hensure]
    rfl
  rw [h] at halloc
  obtain ⟨rfl, rfl⟩ := Prod.mk.inj (Option.some.inj halloc)
  refine ⟨?_, hensured.xsize_eq⟩
  rw [hensured.first_eq]
  exact hensured.contiguous.resolve_left (by omega)

/-- The segment has the content `content`, and room for some more bytes. Its history is lost if
it has got bytes since its content was `start`. -/
structure Filled (start : Str) (s : WvCircularBufStore) (content : Str) (room : Nat) : Prop where
  valid : Valid s
  content_eq : s.view.content = content
  history : content ≠ start → s.view.history = []
  room : content.length + room ≤ s.xsize

theorem Filled.used (h : Filled start s content room) : s.totalused = content.length := by
  rw [← h.content_eq, h.valid.length_content]

theorem Filled.le_free (h : Filled start s content room) : room ≤ s.free := by
  have hused := h.used
  have hroom := h.room
  rw [free]
  omega

theorem Valid.filled (hs : Valid s) (hroom : room ≤ s.free) :
    Filled s.view.content s s.view.content room where
  valid := hs
  content_eq := rfl
  history h := absurd rfl h
  room := by
    have hused := hs.used_le
    have hinit := hs.init_le
    rw [free] at hroom
    rw [hs.length_content]
    omega

theorem Filled.alloc {n : Nat} (hstart : start <+: content)
    (h : Filled start s content (n + room)) (hpos : 0 < n) :
    ∃ s' first, s.alloc n = some (s', first) ∧ WvBufStore.Pending sink
        (fun s content room => start <+: content ∧ Filled start s content room) s' first content n room := by
  have hused := h.used
  have hsize := h.room
  have hfree : n ≤ s.free := by
    rw [free]
    omega
  have hspec : ∀ bytes : Str, bytes.length = n → ∃ s' first, s.alloc n = some (s', first) ∧
      ({ s' with data := blit s'.data first bytes } : WvCircularBufStore).view =
        s.view.forget.put bytes ∧ Valid { s' with data := blit s'.data first bytes } := by
    rintro bytes rfl
    exact alloc_spec h.valid hfree
  obtain ⟨s', first, halloc, -, -⟩ := hspec (replicate n 0) length_replicate
  obtain ⟨hfirst, hxsize⟩ := alloc_room h.valid hpos hfree halloc
  refine ⟨s', first, halloc, ?_, ?_⟩
  · intro bytes hbytes
    obtain ⟨s'', first', halloc', hview, hvalid⟩ := hspec bytes hbytes
    rw [halloc] at halloc'
    obtain ⟨rfl, rfl⟩ := Prod.mk.inj (Option.some.inj halloc')
    refine ⟨hstart.trans (prefix_append _ _), hvalid, ?_, fun _ => ?_, ?_⟩
    · rw [← h.content_eq]
      exact congrArg Queue.content hview
    · exact congrArg Queue.history hview
    · have hlen : (blit s'.data first bytes).length = s'.data.length :=
        length_blit (by rw [hbytes]; exact hfirst)
      show (content ++ bytes).length + room ≤ (blit s'.data first bytes).length
      have hsame : s'.data.length = s.xsize := hxsize
      rw [hlen, hsame, length_append, hbytes]
      omega
  · intro xs ys hlen
    have hfits : first + xs.length ≤ s'.data.length := by
      have hle : first + n ≤ s'.data.length := hfirst
      omega
    exact congrArg (fun data => ({ s' with data := data } : WvCircularBufStore)) (blit_append hfits)

theorem sink_writes (start : Str) :
    WvBufStore.Writes sink fun s content room =>
      start <+: content ∧ Filled start s content room where
  optallocable := by
    rintro s content room ⟨-, h⟩ hroom
    have hused := h.used
    have hsize := h.room
    show 0 < s.optallocable
    rw [optallocable]
    split <;> omega
  alloc := by
    rintro s content room n ⟨hstart, h⟩ hpos -
    exact h.alloc hstart hpos

def Has (s : WvCircularBufStore) (content : Str) : Prop := Valid s ∧ s.view.content = content

theorem source_reads : WvBufStore.Reads source Has where
  optgettable := by
    rintro s content ⟨hs, rfl⟩ hne
    have hlen := hs.length_content
    have hpos := length_pos_iff.mpr hne
    have hhead := hs.head_lt
    show 0 < s.optgettable
    rw [optgettable]
    omega
  get := by
    rintro s content n ⟨hs, rfl⟩ hpos hopt hn
    rw [hs.length_content] at hn
    obtain ⟨s', first, hget, hview, hread, hvalid⟩ := get_spec hs hn
    refine ⟨s', ?_, hvalid, ?_⟩
    · show (s.get n).map _ = _
      rw [hget, ← hread]
      rfl
    · rcases hview with h | h <;> rw [h] <;> rfl

theorem merge_spec {instore : WvCircularBufStore} {count : Nat} (hstart : start <+: content)
    (hs : Filled start s content (count + room)) (ht : Valid instore)
    (hcount : count ≤ instore.used) :
    ∃ s' instore', s.merge instore count = some (s', instore') ∧
      Filled start s' (content ++ instore.view.content.take count) room ∧ Valid instore' ∧
      instore'.view.content = instore.view.content.drop count := by
  have hlen : count ≤ instore.view.content.length := by
    rw [ht.length_content]
    exact hcount
  have hfrom : Has instore instore.view.content := ⟨ht, rfl⟩
  obtain ⟨s', instore', hmerge, ⟨-, hfilled⟩, hvalid, hcontent⟩ :=
    WvBufStore.basicmerge_spec (sink_writes start) source_reads ⟨hstart, hs⟩ hfrom hlen
  exact ⟨s', instore', hmerge, hfilled, hvalid, hcontent⟩

end WvCircularBufStore

end WvStreams
