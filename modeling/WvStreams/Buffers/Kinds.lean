import WvStreams.Buffers.InPlaceBuf
import WvStreams.Buffers.Laws
import WvStreams.Buffers.Peek

/-!
# The kinds of stores

The laws of `Laws.lean` hold of arrays, of rings, and of linked buffers of both classes, whatever
their segments are. `BufStore` is any of them, as a buffer has it.
-/

namespace WvStreams

open Lib Lib.Ring List

namespace WvBufStore

theorem add_peekable {q : Queue} {used ungettable : Nat} {offset : Int}
    (hhistory : q.history.length = ungettable) (hcontent : q.content.length = used)
    (hlow : -(q.history.length : Int) ≤ offset) (hhigh : offset < q.content.length) :
    0 < peekable used ungettable offset ∧
      offset + peekable used ungettable offset = q.content.length := by
  rw [hhistory] at hlow
  rw [hcontent] at hhigh ⊢
  rw [peekable]
  split
  · omega
  · split
    · rw [if_pos (by omega)]
      omega
    · omega

/-- The calls of `WvReadOnlyBufferStoreMixin`. -/
def readOnly {σ : Type} : Sink σ where
  optallocable _ := 0
  alloc s count := if count = 0 then some (s, 0) else none
  unalloc s count := if count = 0 then some s else none
  store s _ _ := s

theorem readOnly_lawful {σ : Type} {w : Writer σ} (h : ∀ s, w.free s = 0) : w.Lawful where
  optallocable := fun _ hfree => absurd (hfree.trans_eq (h _)) (Nat.lt_irrefl 0)
  alloc := by
    intro s n room _ hpos _ hfree
    have hnone := h s
    omega

end WvBufStore

/-! ## Arrays -/

namespace WvInPlaceBufStore

def writer : WvBufStore.Writer WvInPlaceBufStore where
  toSink := sink
  Valid _ := True
  view := view
  free := free
  Keeps _ := True

def reader : WvBufStore.Reader WvInPlaceBufStore where
  toSource := source
  unget := unget
  Valid _ := True
  view := view

def editor : WvBufStore.Editor WvInPlaceBufStore where
  used := used
  optpeekable s offset := WvBufStore.peekable s.used s.ungettable offset
  peek s offset count := (s.mutablepeek offset count).map fun first => (s, slice s.data first count)
  overwrite s offset bytes := (s.mutablepeek offset bytes.length).map fun first => s.store first bytes
  Valid _ := True
  Writable _ := True
  view := view

theorem writer_lawful : writer.Lawful where
  optallocable := fun _ hfree => hfree
  alloc := by
    rintro s n room - hpos - hfree
    change n + room ≤ s.free at hfree
    obtain ⟨s', first, halloc, hfirst, hleft, hdata, hput⟩ := alloc_spec (show n ≤ s.free by omega)
    have hfits : s.writeidx + n ≤ s.data.length := by
      have hle := s.write_le
      rw [free, xsize] at hfree
      omega
    refine ⟨s', first, halloc, fun _ _ => trivial, fun bytes hbytes => ?_, fun _ bytes hbytes => ?_,
      fun hnot => absurd trivial hnot, fun xs ys hlen => ?_⟩
    · show room ≤ (blit s'.data first bytes).length - s'.writeidx
      have hle := length_le_blit s'.data first bytes
      have hfree' : s'.data.length - s'.writeidx = s.free - n := hleft
      omega
    · exact ⟨hput bytes hbytes, .inr trivial⟩
    · have hblit := @blit_append _ s'.data xs ys first
        (by rw [hdata, hfirst]; omega)
      show (s'.store first xs).store (first + xs.length) ys = s'.store first (xs ++ ys)
      simp only [store, hblit]

theorem reader_lawful : reader.Lawful where
  optgettable := by
    intro s _ hne
    have hlen := s.length_content
    show 0 < s.used
    rw [← hlen]
    exact length_pos_iff.mpr hne
  get := by
    intro s n _ hn
    obtain ⟨s', first, hget, hview, hslice⟩ := get_spec (hn.trans_eq s.length_content)
    refine ⟨s', ?_, trivial, congrArg Queue.content hview, _, suffix_refl _,
      congrArg Queue.history hview⟩
    show (s.get n).map _ = _
    rw [hget]
    exact congrArg (fun out => some (s', out)) hslice
  unget := by
    intro s n _ hn
    obtain ⟨s', hunget, hview⟩ := unget_spec (hn.trans_eq s.length_history)
    exact ⟨s', hunget, trivial, hview⟩

theorem editor_lawful : editor.Lawful where
  used := fun {s} _ => s.length_content.symm
  optpeekable := by
    rintro s offset - ⟨hlow, hhigh⟩
    obtain ⟨hpos, hsum⟩ := WvBufStore.add_peekable s.length_history s.length_content hlow hhigh
    exact ⟨hpos, hsum.le⟩
  peek := by
    rintro s offset count - - - hcount
    obtain ⟨first, hpeek, hslice, -⟩ := peek_spec hcount
    refine ⟨s, ?_, trivial, rfl⟩
    show (s.mutablepeek offset count).map _ = _
    rw [hpeek]
    exact congrArg (fun out => some (s, out)) hslice
  overwrite := by
    rintro s offset bytes - - - - hcount
    obtain ⟨first, hpeek, -, hwrite⟩ := peek_spec hcount
    refine ⟨s.store first bytes, ?_, trivial, trivial, hwrite bytes rfl⟩
    show (s.mutablepeek offset bytes.length).map _ = _
    rw [hpeek]
    rfl

end WvInPlaceBufStore

namespace WvConstInPlaceBufStore

def writer : WvBufStore.Writer WvConstInPlaceBufStore where
  toSink := WvBufStore.readOnly
  Valid _ := True
  view := view
  free _ := 0
  Keeps _ := True

def reader : WvBufStore.Reader WvConstInPlaceBufStore where
  toSource := source
  unget := unget
  Valid _ := True
  view := view

def editor : WvBufStore.Editor WvConstInPlaceBufStore where
  used := used
  optpeekable s offset := WvBufStore.peekable s.used s.ungettable offset
  peek s offset count := (s.peek offset count).map fun first => (s, slice s.data first count)
  overwrite s _ bytes := if bytes = [] then some s else none
  Valid _ := True
  Writable _ := False
  view := view

theorem reader_lawful : reader.Lawful where
  optgettable _ hne := WvInPlaceBufStore.reader_lawful.optgettable trivial hne
  get := by
    intro s n _ hn
    obtain ⟨s', first, hget, hview, hslice⟩ := get_spec (hn.trans_eq s.writable.length_content)
    refine ⟨s', ?_, trivial, congrArg Queue.content hview, _, suffix_refl _,
      congrArg Queue.history hview⟩
    show (s.get n).map _ = _
    rw [hget]
    exact congrArg (fun out => some (s', out)) hslice
  unget := by
    intro s n _ hn
    obtain ⟨s', hunget, hview⟩ := unget_spec (hn.trans_eq s.writable.length_history)
    exact ⟨s', hunget, trivial, hview⟩

theorem editor_lawful : editor.Lawful where
  used := fun {s} _ => s.writable.length_content.symm
  optpeekable _ hrange := WvInPlaceBufStore.editor_lawful.optpeekable trivial hrange
  peek := by
    rintro s offset count - - - hcount
    obtain ⟨first, hpeek, hslice⟩ := peek_spec hcount
    refine ⟨s, ?_, trivial, rfl⟩
    show (s.peek offset count).map _ = _
    rw [hpeek]
    exact congrArg (fun out => some (s, out)) hslice
  overwrite := fun _ hnever => hnever.elim

end WvConstInPlaceBufStore

/-! ## Rings -/

namespace WvCircularBufStore

def writer : WvBufStore.Writer WvCircularBufStore where
  toSink := sink
  Valid := Valid
  view := view
  free := free
  Keeps _ := False

def reader : WvBufStore.Reader WvCircularBufStore where
  toSource := source
  unget := unget
  Valid := Valid
  view := view

def editor : WvBufStore.Editor WvCircularBufStore where
  used := used
  optpeekable := peekable
  peek s offset count := (s.mutablepeek offset count).map fun (s, first) =>
    (s, slice s.data first count)
  overwrite s offset bytes := (s.mutablepeek offset bytes.length).map fun (s, first) =>
    { s with data := blit s.data first bytes }
  Valid := Sized
  Writable _ := True
  view := view

variable {s : WvCircularBufStore}

theorem optallocable_pos (hfree : 0 < s.free) : 0 < s.optallocable := by
  rw [free] at hfree
  rw [optallocable]
  split <;> omega

theorem optallocable_le (s : WvCircularBufStore) : s.optallocable ≤ s.free := by
  rw [optallocable, free]
  split <;> omega

theorem optgettable_pos (hs : Valid s) (hused : 0 < s.used) : 0 < s.optgettable := by
  have hhead := hs.head_lt
  rw [used] at hused
  rw [optgettable]
  omega

theorem writer_lawful : writer.Lawful where
  optallocable _ hfree := optallocable_pos hfree
  alloc := by
    intro s n room hs hpos _ hfree
    obtain ⟨s', first, halloc, hpending⟩ := (hs.filled hfree).alloc (prefix_refl _) hpos
    refine ⟨s', first, halloc, fun bytes hbytes => ?_, fun bytes hbytes => ?_,
      fun hkeeps => hkeeps.elim, fun _ bytes hbytes => ?_, hpending.parts⟩
    · exact (hpending.filled bytes hbytes).2.valid
    · exact (hpending.filled bytes hbytes).2.le_free
    · obtain ⟨-, hfilled⟩ := hpending.filled bytes hbytes
      have hne : s.view.content ++ bytes ≠ s.view.content := by
        intro h
        have hlen := congrArg length h
        rw [length_append] at hlen
        omega
      have hhistory := hfilled.history hne
      have hcontent := hfilled.content_eq
      show view (sink.store s' first bytes) = ⟨[], s.view.content ++ bytes⟩
      rw [← hhistory, ← hcontent]

theorem reader_lawful : reader.Lawful where
  optgettable := by
    intro s hs hne
    apply optgettable_pos hs
    have hlen := hs.length_content
    have hpos := length_pos_iff.mpr hne
    rw [used]
    exact hpos.trans_eq hlen
  get := by
    intro s n hs hn
    obtain ⟨s', first, hget, hview, hslice, hvalid⟩ := get_spec hs (hn.trans_eq hs.length_content)
    have hcall : reader.get s n = some (s', s.view.content.take n) := by
      show (s.get n).map _ = _
      rw [hget]
      exact congrArg (fun out => some (s', out)) hslice
    refine ⟨s', hcall, hvalid, ?_⟩
    rcases hview with h | h
    · exact ⟨congrArg Queue.content h, _, suffix_refl _, congrArg Queue.history h⟩
    · exact ⟨congrArg Queue.content h, [], nil_suffix, congrArg Queue.history h⟩
  unget := by
    intro s n hs hn
    obtain ⟨s', hunget, hview, hvalid⟩ := unget_spec hs (hn.trans_eq hs.length_history)
    exact ⟨s', hunget, hvalid, hview⟩

theorem overwrite_spec (hs : Sized s) {offset : Int} {bytes : Str}
    (hcount : bytes.length ≤ s.peekable offset) :
    ∃ s' first, s.mutablepeek offset bytes.length = some (s', first) ∧
      Sized { s' with data := blit s'.data first bytes } ∧ s'.totalused = s.totalused ∧
      ({ s' with data := blit s'.data first bytes } : WvCircularBufStore).view =
        s.view.write offset bytes := by
  obtain ⟨s', first, hpeek, -, hsized, -, hwrite, hlen, -⟩ := mutablepeek_spec hs hcount
  have hle := length_le_blit s'.data first bytes
  exact ⟨s', first, hpeek, ⟨hsized.pos.trans_le hle, hsized.used_le, hsized.init_le.trans hle⟩,
    (mutablepeek_sized hs hpeek).2, hwrite⟩

theorem editor_lawful : editor.Lawful where
  used := fun hs => hs.length_content.symm
  optpeekable := by
    rintro s offset hs ⟨hlow, hhigh⟩
    obtain ⟨hpos, hsum⟩ := WvBufStore.add_peekable hs.length_history hs.length_content hlow hhigh
    exact ⟨hpos, hsum.le⟩
  peek := by
    rintro s offset count hs - - hcount
    obtain ⟨s', first, hpeek, hview, hslice, -⟩ := peek_spec hs hcount
    refine ⟨s', ?_, (mutablepeek_sized hs hpeek).1, hview⟩
    show (s.mutablepeek offset count).map _ = _
    rw [hpeek]
    exact congrArg (fun out => some (s', out)) hslice
  overwrite := by
    rintro s offset bytes hs - - - hcount
    obtain ⟨s', first, hpeek, hsized, -, hwrite⟩ := overwrite_spec hs hcount
    refine ⟨_, ?_, hsized, trivial, hwrite⟩
    show (s.mutablepeek offset bytes.length).map _ = _
    rw [hpeek]
    rfl

end WvCircularBufStore

/-! ## Linked buffers -/

namespace WvLinkedBufferStore

/-- What peeks keep of `Inv`: a segment may be left with its head behind its array. -/
structure Loose (s : WvLinkedBufferStore) : Prop where
  sized : ∀ buf ∈ s.list, buf.Sized
  total : s.totalused = (s.list.map WvCircularBufStore.used).sum

variable {s : WvLinkedBufferStore}

theorem Inv.loose (hs : Inv s) : Loose s where
  sized := fun buf hbuf => (hs.valid buf hbuf).toSized
  total := hs.total.trans (length_contents hs.valid)

theorem Loose.length_content (hs : Loose s) : s.content.length = s.totalused := by
  rw [hs.total, content, length_contents_sized hs.sized]

theorem Loose.length_history (hs : Loose s) : s.history.length = s.ungettable := by
  rw [ungettable, history]
  cases hlist : s.list with
  | nil => rfl
  | cons first rest =>
    have hfirst := hs.sized first (by rw [hlist]; exact mem_cons_self)
    rw [length_lastBytes, hfirst.length_history]

section Segment

variable {s : WvLinkedBufferStore} {front rest : List WvCircularBufStore}
  {buf buf' : WvCircularBufStore}

theorem Loose.replace (hs : Loose s) (hlist : s.list = front ++ buf :: rest)
    (hbuf' : buf'.Sized) (hused : buf'.totalused = buf.totalused) :
    Loose { s with list := front ++ buf' :: rest } := by
  have hsized := hs.sized
  have htotal := hs.total
  rw [hlist, forall_mem_append, forall_mem_cons] at hsized
  refine ⟨?_, ?_⟩
  · rw [forall_mem_append, forall_mem_cons]
    exact ⟨hsized.1, hbuf', hsized.2.2⟩
  · have hsame : buf'.used = buf.used := hused
    rw [hlist, map_append, map_cons, ← hsame] at htotal
    rw [map_append, map_cons]
    exact htotal

/-- The segment in which an offset lies, with the offset within it. -/
structure Located (s : WvLinkedBufferStore) (offset : Int) (front : List WvCircularBufStore)
    (buf : WvCircularBufStore) (rest : List WvCircularBufStore) (o : Int) : Prop where
  list_eq : s.list = front ++ buf :: rest
  search_eq : s.search offset = some (front.length, o)
  low : -(buf.view.history.length : Int) ≤ o
  high : o < buf.view.content.length
  /-- The bytes from the offset on are those of the segment. -/
  peek : ∀ count : Nat, o + count ≤ buf.view.content.length →
    s.view.peek offset count = buf.view.peek o count
  /-- When bytes of the segment are replaced, the same ones of the store are. -/
  write : ∀ (bytes : Str) (buf' : WvCircularBufStore), o + bytes.length ≤ buf.view.content.length →
    buf'.view = buf.view.write o bytes →
    view { s with list := front ++ buf' :: rest } = s.view.write offset bytes
  behind : offset + (buf.view.content.length - o) ≤ s.content.length

theorem located_content (hs : Loose s) {offset : Nat} (h : offset < s.totalused) :
    ∃ front buf rest o, Located s offset front buf rest o := by
  rw [hs.total] at h
  obtain ⟨front, buf, rest, o, hlist, hsearch, ho, hsum⟩ := search_sum h
  have hsized := hs.sized
  rw [hlist, forall_mem_append, forall_mem_cons] at hsized
  have hlen : buf.view.content.length = buf.used := hsized.2.1.length_content
  have hplace : offset = (contents front).length + o := by
    rw [length_contents_sized hsized.1]
    exact hsum
  have hcontent : s.content = contents front ++ buf.view.content ++ contents rest := by
    rw [content, hlist, contents_append, contents_cons, append_assoc]
  have hview : s.view = ⟨s.history, contents front ++ buf.view.content ++ contents rest⟩ := by
    rw [view, hcontent]
  refine ⟨front, buf, rest, o, hlist, hsearch, by omega, by omega, ?_, ?_, ?_⟩
  · intro count hcount
    rw [hview, hplace, Queue.peek_within (by omega), Queue.peek_natCast]
    rfl
  · intro bytes buf' hbytes hbuf'
    rw [Queue.write_natCast] at hbuf'
    rw [hview, hplace, Queue.write_within (by omega)]
    have hcontents : contents (front ++ buf' :: rest) =
        contents front ++ blit buf.view.content o bytes ++ contents rest := by
      rw [contents_append, contents_cons, hbuf', append_assoc]
    have hhistory : history { s with list := front ++ buf' :: rest } = s.history := by
      rw [history, history, hlist]
      cases front with
      | nil =>
        show lastBytes s.maxungettable buf'.view.history = _
        rw [hbuf']
        rfl
      | cons first front => rfl
    rw [view, hhistory, content, hcontents]
  · rw [hcontent, length_append, length_append]
    omega

theorem located_history (hs : Loose s) {offset : Int} (hneg : offset < 0)
    (hback : -(s.history.length : Int) ≤ offset) :
    ∃ front buf rest o, Located s offset front buf rest o := by
  rw [hs.length_history] at hback
  obtain ⟨first, rest, hlist, hsearch⟩ := search_history (s := s) hneg (by omega)
  rw [← hs.length_history] at hback
  have hhistory : s.history = lastBytes s.maxungettable first.view.history := by
    rw [history, hlist]
  obtain ⟨older, holder⟩ := lastBytes_suffix s.maxungettable first.view.history
  rw [← hhistory] at holder
  have hself : first.view = ⟨older ++ s.history, first.view.content⟩ := by
    rw [holder]
  have hview : s.view = ⟨s.history, first.view.content ++ contents rest⟩ := by
    rw [view, content, hlist, contents_cons]
  have hlow : 0 ≤ s.history.length + offset := by omega
  have hlen := congrArg length holder
  rw [length_append] at hlen
  have hwithin {n : Nat} (h : offset + n ≤ first.view.content.length) :
      (s.history.length + offset).toNat + n ≤ (s.history ++ first.view.content).length := by
    rw [length_append]
    omega
  refine ⟨[], first, rest, offset, hlist, hsearch, by omega, by omega, ?_, ?_, ?_⟩
  · intro count hcount
    rw [hself, hview]
    exact (Queue.peek_back (contents rest) hlow (hwithin hcount)).symm
  · intro bytes buf' hbytes hbuf'
    obtain ⟨history', part', hsame, hone, htwo⟩ :=
      @Queue.write_back older _ _ _ (contents rest) _ hlow (hwithin hbytes)
    rw [hself, hone] at hbuf'
    have hshown : history { s with list := [] ++ buf' :: rest } = history' := by
      show lastBytes s.maxungettable buf'.view.history = _
      rw [hbuf']
      refine lastBytes_same ?_ hsame
      rw [holder, hhistory]
    rw [hview, htwo, view, hshown, content]
    show (⟨history', contents (buf' :: rest)⟩ : Queue) = _
    rw [contents_cons, hbuf']
  · rw [content, hlist, contents_cons, length_append]
    omega

theorem Located.add_peekable {offset o : Int} (h : Located s offset front buf rest o)
    (hbuf : buf.Sized) : 0 < buf.peekable o ∧ o + buf.peekable o = buf.view.content.length :=
  WvBufStore.add_peekable hbuf.length_history hbuf.length_content h.low h.high

theorem Located.mutablepeek {newbuffer : WvLinkedBufferStore → Nat → WvCircularBufStore}
    {offset o : Int} (h : Located s offset front buf rest o) {count : Nat}
    (hcount : count ≠ 0) (hle : count ≤ buf.peekable o) :
    s.mutablepeek newbuffer offset count = (buf.mutablepeek o count).map fun (buf, first) =>
      ({ s with list := front ++ buf :: rest }, front.length, first) := by
  rw [mutablepeek_found h.list_eq h.search_eq hcount, enlarged, if_neg (Nat.not_lt.mpr hle)]
  rfl

end Segment

end WvLinkedBufferStore

namespace LinkedStore

open WvLinkedBufferStore

/-- `WvDynBufStore::free` does not count. -/
def free : LinkedStore → Nat
  | .plain _ s => s.free
  | .dyn s => s.free

def unget (s : LinkedStore) (count : Nat) : Option LinkedStore :=
  (s.segments.unget count).map s.relink

def editor : WvBufStore.Editor LinkedStore where
  used s := s.segments.used
  optpeekable s := s.segments.optpeekable
  peek s offset count := (s.segments.mutablepeek s.newbuffer offset count).map
    fun (linked, i, first) => (s.relink linked, linked.readAt i first count)
  overwrite s offset bytes := (s.segments.mutablepeek s.newbuffer offset bytes.length).map
    fun (linked, i, first) => s.relink (linked.storeAt i first bytes)
  Valid s := Loose s.segments
  Writable _ := True
  view s := s.segments.view

def writer : WvBufStore.Writer LinkedStore where
  toSink := sink
  Valid s := Inv s.segments
  view s := s.segments.view
  free := free
  -- the last segment is not the first one, or another one is appended
  Keeps s := s.segments.list.length ≠ 1 ∨ s.segments.optallocable = 0

def reader : WvBufStore.Reader LinkedStore where
  toSource := source
  unget := unget
  Valid s := Inv s.segments
  view s := s.segments.view

variable {s : LinkedStore}

theorem located (hs : Loose s.segments) {offset : Int} (h : editor.InRange s offset) :
    ∃ front buf rest o, Located s.segments offset front buf rest o := by
  obtain ⟨hlow, hhigh⟩ := h
  by_cases hneg : offset < 0
  · exact located_history hs hneg hlow
  · obtain ⟨offset, rfl⟩ := Int.eq_ofNat_of_zero_le (Int.not_lt.mp hneg)
    have hlen := hs.length_content
    have hlt : (offset : Int) < s.segments.content.length := hhigh
    exact located_content hs (by omega)

theorem editor_lawful : editor.Lawful where
  used := fun hs => hs.length_content.symm
  optpeekable := by
    intro s offset hs hrange
    obtain ⟨front, buf, rest, o, hlocated⟩ := located hs hrange
    have hbuf : buf.Sized := hs.sized buf (by rw [hlocated.list_eq]; simp)
    obtain ⟨hpos, hsum⟩ := hlocated.add_peekable hbuf
    have hbehind := hlocated.behind
    show 0 < s.segments.optpeekable offset ∧ offset + s.segments.optpeekable offset ≤
      s.segments.content.length
    rw [optpeekable_found hlocated.list_eq hlocated.search_eq]
    omega
  peek := by
    intro s offset count hs hrange hpos hcount
    obtain ⟨front, buf, rest, o, hlocated⟩ := located hs hrange
    have hbuf : buf.Sized := hs.sized buf (by rw [hlocated.list_eq]; simp)
    have hle : count ≤ buf.peekable o :=
      hcount.trans_eq (optpeekable_found hlocated.list_eq hlocated.search_eq)
    obtain ⟨buf', first, hpeek, hview, hslice, -⟩ := WvCircularBufStore.peek_spec hbuf hle
    obtain ⟨hbuf', hused⟩ := WvCircularBufStore.mutablepeek_sized hbuf hpeek
    have hend : o + count ≤ buf.view.content.length := by
      have hsum := (hlocated.add_peekable hbuf).2
      omega
    refine ⟨s.relink { s.segments with list := front ++ buf' :: rest }, ?_, ?_, ?_⟩
    · show (s.segments.mutablepeek s.newbuffer offset count).map _ = _
      rw [hlocated.mutablepeek hpos.ne' hle, hpeek]
      refine congrArg (fun out => some (s.relink _, out)) ?_
      rw [readAt_found rfl, hslice]
      exact (hlocated.peek count hend).symm
    · show Loose (s.relink _).segments
      rw [segments_relink]
      exact hs.replace hlocated.list_eq hbuf' hused
    · show view (s.relink _).segments = view s.segments
      rw [segments_relink, hlocated.write [] buf' (by simpa using hlocated.high.le)
        (hview.trans (Queue.write_nil _ _).symm), Queue.write_nil]
  overwrite := by
    intro s offset bytes hs _ hrange hpos hcount
    obtain ⟨front, buf, rest, o, hlocated⟩ := located hs hrange
    have hbuf : buf.Sized := hs.sized buf (by rw [hlocated.list_eq]; simp)
    have hle : bytes.length ≤ buf.peekable o :=
      hcount.trans_eq (optpeekable_found hlocated.list_eq hlocated.search_eq)
    obtain ⟨buf', first, hpeek, hbuf', hused, hwrite⟩ :=
      WvCircularBufStore.overwrite_spec hbuf hle
    have hend : o + bytes.length ≤ buf.view.content.length := by
      have hsum := (hlocated.add_peekable hbuf).2
      omega
    have hcall : editor.overwrite s offset bytes = some (s.relink { s.segments with
        list := front ++ { buf' with data := blit buf'.data first bytes } :: rest }) := by
      show (s.segments.mutablepeek s.newbuffer offset bytes.length).map _ = _
      rw [hlocated.mutablepeek hpos.ne' hle, hpeek]
      refine congrArg (fun linked => some (s.relink linked)) ?_
      exact storeAt_found rfl first bytes
    refine ⟨_, hcall, ?_, trivial, ?_⟩
    · show Loose (s.relink _).segments
      rw [segments_relink]
      exact hs.replace hlocated.list_eq hbuf' hused
    · show view (s.relink _).segments = _
      rw [segments_relink]
      exact hlocated.write bytes _ hend hwrite

theorem last_room {s : WvLinkedBufferStore} (hfree : 0 < s.free) :
    ∃ buf, s.list.getLast? = some buf ∧ s.free = buf.free ∧ s.optallocable = buf.optallocable := by
  rw [WvLinkedBufferStore.free] at hfree
  rw [WvLinkedBufferStore.free, WvLinkedBufferStore.optallocable]
  cases hlast : s.list.getLast? with
  | none =>
    rw [hlast] at hfree
    cases hfree
  | some buf => exact ⟨buf, rfl, rfl, rfl⟩

theorem optallocable_le (s : WvLinkedBufferStore) : s.optallocable ≤ s.free := by
  rw [WvLinkedBufferStore.free, WvLinkedBufferStore.optallocable]
  cases s.list.getLast? with
  | none => exact Nat.le_refl 0
  | some buf => exact WvCircularBufStore.optallocable_le buf

theorem relink_relink (s : LinkedStore) (linked linked' : WvLinkedBufferStore) :
    (s.relink linked).relink linked' = s.relink linked' := by
  cases s <;> rfl

theorem optallocable_eq_zero {s : WvLinkedBufferStore} (h : s.optallocable = 0) : s.free = 0 := by
  by_contra hfree
  obtain ⟨buf, -, hbuf, hopt⟩ := last_room (Nat.pos_of_ne_zero hfree)
  have hpos := WvCircularBufStore.optallocable_pos (s := buf) (by omega)
  omega

/-- The segments that memory is allocated in, the last of which has it. -/
structure Target (s : LinkedStore) (n room : Nat) (linked : WvLinkedBufferStore)
    (buf : WvCircularBufStore) (left : Nat) : Prop where
  alloc : s.alloc n = (linked.alloc n).map fun (linked, first) => (s.relink linked, first)
  inv : Inv linked
  content : linked.content = s.segments.content
  history : linked.history = s.segments.history
  last : linked.list.getLast? = some buf
  fits : n + left ≤ buf.free
  room : ∀ linked' : WvLinkedBufferStore, left ≤ linked'.free → room ≤ (s.relink linked').free
  keeps : writer.Keeps s → s.segments.history = [] ∨ linked.list.length ≠ 1
  loses : ¬ writer.Keeps s → linked.list.length = 1

theorem Target.last_segment (hs : Inv s.segments) {n room left : Nat}
    (hpos : 0 < n) (halloc : s.alloc n = (s.segments.alloc n).map fun (linked, first) =>
      (s.relink linked, first)) (hfree : n + left ≤ s.segments.free)
    (hroom : ∀ linked' : WvLinkedBufferStore, left ≤ linked'.free →
      room ≤ (s.relink linked').free) : ∃ buf, Target s n room s.segments buf left := by
  obtain ⟨buf, hlast, hbuf, -⟩ := last_room (s := s.segments) (by omega)
  have hopt : s.segments.optallocable ≠ 0 := by
    intro hzero
    have hnone := optallocable_eq_zero hzero
    omega
  refine ⟨buf, halloc, hs, rfl, rfl, hlast, hfree.trans_eq hbuf, hroom, ?_, ?_⟩
  · intro hkeeps
    exact .inr (hkeeps.resolve_right hopt)
  · intro hnot
    by_contra hne
    exact hnot (.inl hne)

theorem target (hs : Inv s.segments) {n room : Nat} (hpos : 0 < n)
    (hopt : n ≤ s.optallocable) (hfree : n + room ≤ s.free) :
    ∃ linked buf left, Target s n room linked buf left := by
  cases s with
  | plain granularity s =>
    obtain ⟨buf, htarget⟩ := @Target.last_segment (.plain granularity s) hs _ _ room hpos
      rfl hfree fun _ hleft => hleft
    exact ⟨s, buf, room, htarget⟩
  | dyn s =>
    have hroom : room ≤ UNLIMITED_FREE_SPACE := (Nat.le_add_left _ _).trans hfree
    by_cases hmore : n > s.toWvLinkedBufferStore.free
    · -- the last segment is full: it would have less than was asked for otherwise
      have hfull : s.toWvLinkedBufferStore.optallocable = 0 := by
        by_contra hne
        change n ≤ s.optallocable at hopt
        rw [WvDynBufStore.optallocable, if_neg hne] at hopt
        have hle := optallocable_le s.toWvLinkedBufferStore
        omega
      have hfilled := s.fresh_newbuffer.filled s.toWvLinkedBufferStore hpos
      obtain ⟨hinv, hcontent, hhistory⟩ := appendsubbuffer_spec hs hfilled.valid
      rw [hfilled.content_eq, append_nil] at hcontent
      refine ⟨_, _, 0, ?_, hinv, hcontent, hhistory, getLast?_concat, hfilled.le_free,
        fun _ _ => hroom, fun _ => ?_, fun hnot => absurd (.inr hfull) hnot⟩
      · show (s.alloc n).map _ = _
        rw [WvDynBufStore.alloc, if_pos hmore, Option.map_map]
        rfl
      · show s.toWvLinkedBufferStore.history = [] ∨ (s.list ++ [_]).length ≠ 1
        rw [history]
        cases s.list with
        | nil => exact .inl rfl
        | cons first rest => exact .inr (by simp)
    · have hless : n + 0 ≤ s.toWvLinkedBufferStore.free := Nat.le_of_not_lt hmore
      obtain ⟨buf, htarget⟩ := @Target.last_segment (.dyn s) hs _ room 0 hpos
        (by
          show (s.alloc n).map _ = _
          rw [WvDynBufStore.alloc, if_neg hmore, Option.map_map]
          rfl)
        hless fun _ _ => hroom
      exact ⟨_, buf, 0, htarget⟩

theorem Target.grown {n room left : Nat} {linked : WvLinkedBufferStore}
    {buf : WvCircularBufStore} (h : Target s n room linked buf left) (hpos : 0 < n) :
    ∃ s' first, s.alloc n = some (s', first) ∧ writer.Grown s n room s' first := by
  obtain ⟨linked', first, halloc, hfilled, hparts⟩ :=
    alloc_spec h.inv h.last hpos h.fits
  have hstore (bytes : Str) : (sink.store (s.relink linked') first bytes) =
      s.relink (linked'.store first bytes) := by
    show (s.relink linked').relink ((s.relink linked').segments.store first bytes) = _
    rw [segments_relink, relink_relink]
  have hview (bytes : Str) (hbytes : bytes.length = n) :
      (s.relink (linked'.store first bytes)).segments.view =
        ⟨if linked.list.length = 1 then [] else s.segments.history, s.segments.content ++ bytes⟩ := by
    obtain ⟨-, hcontent, hhistory, -⟩ := hfilled bytes hbytes
    rw [segments_relink, view, hcontent, hhistory, h.content, h.history]
  refine ⟨s.relink linked', first, ?_, fun bytes hbytes => ?_, fun bytes hbytes => ?_,
    fun hkeeps bytes hbytes => ?_, fun hnot bytes hbytes => ?_, fun xs ys hlen => ?_⟩
  · rw [h.alloc, halloc]
    rfl
  · show Inv (sink.store (s.relink linked') first bytes).segments
    rw [hstore, segments_relink]
    exact (hfilled bytes hbytes).1
  · show room ≤ (sink.store (s.relink linked') first bytes).free
    rw [hstore]
    exact h.room _ (hfilled bytes hbytes).2.2.2.2
  · show (sink.store (s.relink linked') first bytes).segments.view = _ ∧
      (_ ∨ writer.Keeps (sink.store (s.relink linked') first bytes))
    rw [hstore, hview bytes hbytes]
    rcases h.keeps hkeeps with hnil | hlong
    · rw [hnil, ite_self]
      exact ⟨by rw [← hnil]; rfl, .inl hnil⟩
    · rw [if_neg hlong]
      refine ⟨rfl, .inr (.inl ?_)⟩
      rw [segments_relink, (hfilled bytes hbytes).2.2.2.1]
      exact hlong
  · show (sink.store (s.relink linked') first bytes).segments.view = _
    rw [hstore, hview bytes hbytes, if_pos (h.loses hnot)]
    rfl
  · show sink.store (sink.store (s.relink linked') first xs) (first + xs.length) ys =
      sink.store (s.relink linked') first (xs ++ ys)
    rw [hstore, hstore, ← hparts xs ys hlen]
    show (s.relink _).relink ((s.relink _).segments.store (first + xs.length) ys) = _
    rw [segments_relink, relink_relink]

theorem writer_lawful : writer.Lawful where
  optallocable := by
    intro s hs hfree
    cases s with
    | plain granularity s =>
      obtain ⟨buf, -, hbuf, hopt⟩ := last_room hfree
      have hpos := WvCircularBufStore.optallocable_pos (s := buf) (hbuf ▸ hfree)
      exact hpos.trans_eq hopt.symm
    | dyn s =>
      show 0 < s.optallocable
      rw [WvDynBufStore.optallocable]
      split
      · decide
      · omega
  alloc := by
    intro s n room hs hpos hopt hfree
    obtain ⟨linked, buf, left, htarget⟩ := target hs hpos hopt hfree
    exact htarget.grown hpos

theorem reader_lawful : reader.Lawful where
  optgettable := by
    intro s hs hne
    have hsome : ∃ buf ∈ s.segments.list, buf.view.content ≠ [] := by
      by_contra hnone
      push Not at hnone
      exact hne (flatMap_eq_nil_iff.mpr hnone)
    obtain ⟨buf, hbuf, hcontent⟩ := hsome
    have hvalid := hs.valid buf hbuf
    have hopt : buf.optgettable ≠ 0 := by
      apply Nat.ne_of_gt
      apply WvCircularBufStore.optgettable_pos hvalid
      have hlen := hvalid.length_content
      have hpos := length_pos_iff.mpr hcontent
      rw [WvCircularBufStore.used]
      omega
    show 0 < s.segments.optgettable
    rw [optgettable]
    cases hfind : (s.segments.list.map WvCircularBufStore.optgettable).find? (· ≠ 0) with
    | none =>
      have hzero := find?_eq_none.mp hfind _ (mem_map_of_mem hbuf)
      exact absurd hopt (by simpa using hzero)
    | some n =>
      have hn := find?_some hfind
      exact Nat.pos_of_ne_zero (by simpa using hn)
  get := by
    intro s n hs hn
    obtain ⟨linked, first, kept, hget, hinv, hcontent, hread, hkept, hhistory⟩ :=
      get_spec s.fresh_newbuffer hs (hn.trans_eq hs.total.symm)
    have hcall : s.get n = some (s.relink linked, first) := by
      rw [LinkedStore.get, hget]
      rfl
    refine ⟨s.relink linked, ?_, ?_, ?_, kept, hkept, ?_⟩
    · show (s.get n).map _ = _
      rw [hcall]
      refine congrArg (fun out => some (s.relink linked, out)) ?_
      rw [segments_relink, hread]
      rfl
    · show Inv (s.relink linked).segments
      rwa [segments_relink]
    · show content (s.relink linked).segments = _
      rw [segments_relink, hcontent]
      rfl
    · show history (s.relink linked).segments = _
      rw [segments_relink, hhistory]
      rfl
  unget := by
    intro s n hs hn
    have hle : n ≤ s.segments.ungettable := hn.trans_eq hs.ungettable.symm
    obtain ⟨linked, hunget, hinv, hcontent, hhistory⟩ := unget_spec hs hle
    refine ⟨s.relink linked, ?_, ?_, ?_⟩
    · show (s.segments.unget n).map s.relink = _
      rw [hunget]
      rfl
    · show Inv (s.relink linked).segments
      rwa [segments_relink]
    · show (s.relink linked).segments.view = _
      rw [segments_relink, view, hcontent, hhistory]
      rfl

end LinkedStore

/-! ## All of them -/

namespace WvBufStore

/-- The classes of stores that have bytes of their own, and the one of those that never do. -/
inductive Kind where
  | inPlace
  | constInPlace
  | circular
  | linked
  | null

namespace Kind

@[reducible] def Store : Kind → Type
  | inPlace => WvInPlaceBufStore
  | constInPlace => WvConstInPlaceBufStore
  | circular => WvCircularBufStore
  | linked => LinkedStore
  | null => Unit

def writer : (k : Kind) → Writer k.Store
  | inPlace => WvInPlaceBufStore.writer
  | constInPlace => WvConstInPlaceBufStore.writer
  | circular => WvCircularBufStore.writer
  | linked => LinkedStore.writer
  | null => ⟨readOnly, fun _ => True, fun _ => ⟨[], []⟩, fun _ => 0, fun _ => True⟩

def reader : (k : Kind) → Reader k.Store
  | inPlace => WvInPlaceBufStore.reader
  | constInPlace => WvConstInPlaceBufStore.reader
  | circular => WvCircularBufStore.reader
  | linked => LinkedStore.reader
  | null =>
    { optgettable := fun _ => 0
      get := fun s count => if count = 0 then some (s, []) else none
      unget := fun s count => if count = 0 then some s else none
      Valid := fun _ => True
      view := fun _ => ⟨[], []⟩ }

def editor : (k : Kind) → Editor k.Store
  | inPlace => WvInPlaceBufStore.editor
  | constInPlace => WvConstInPlaceBufStore.editor
  | circular => WvCircularBufStore.editor
  | linked => LinkedStore.editor
  | null =>
    { used := fun _ => 0
      optpeekable := fun _ _ => 0
      peek := fun s _ count => if count = 0 then some (s, []) else none
      overwrite := fun s _ bytes => if bytes = [] then some s else none
      Valid := fun _ => True
      Writable := fun _ => False
      view := fun _ => ⟨[], []⟩ }

variable {k : Kind}

def view (s : k.Store) : Queue := k.reader.view s

def Valid (s : k.Store) : Prop := k.reader.Valid s

def free (s : k.Store) : Nat := k.writer.free s

theorem writer_lawful (k : Kind) : k.writer.Lawful := by
  cases k with
  | inPlace => exact WvInPlaceBufStore.writer_lawful
  | constInPlace => exact readOnly_lawful fun _ => rfl
  | circular => exact WvCircularBufStore.writer_lawful
  | linked => exact LinkedStore.writer_lawful
  | null => exact readOnly_lawful fun _ => rfl

theorem reader_lawful (k : Kind) : k.reader.Lawful := by
  cases k with
  | inPlace => exact WvInPlaceBufStore.reader_lawful
  | constInPlace => exact WvConstInPlaceBufStore.reader_lawful
  | circular => exact WvCircularBufStore.reader_lawful
  | linked => exact LinkedStore.reader_lawful
  | null =>
    refine ⟨fun _ hne => absurd rfl hne, fun {t n} _ hn => ?_, fun {t n} _ hn => ?_⟩
    · obtain rfl := Nat.le_zero.mp hn
      exact ⟨t, rfl, trivial, rfl, [], nil_suffix, rfl⟩
    · obtain rfl := Nat.le_zero.mp hn
      exact ⟨t, rfl, trivial, rfl⟩

theorem editor_lawful (k : Kind) : k.editor.Lawful := by
  cases k with
  | inPlace => exact WvInPlaceBufStore.editor_lawful
  | constInPlace => exact WvConstInPlaceBufStore.editor_lawful
  | circular => exact WvCircularBufStore.editor_lawful
  | linked => exact LinkedStore.editor_lawful
  | null =>
    have hnever {s : Kind.null.Store} {offset : Int} (h : Kind.null.editor.InRange s offset) :
        False := absurd (h.1.trans_lt h.2) (Int.lt_irrefl 0)
    exact ⟨fun _ => rfl, fun _ h => (hnever h).elim, fun _ h => (hnever h).elim,
      fun _ _ h => (hnever h).elim⟩

theorem writer_view (k : Kind) : k.writer.view = view := by
  cases k <;> rfl

theorem writer_valid (k : Kind) : k.writer.Valid = Valid := by
  cases k <;> rfl

theorem editor_view (k : Kind) : k.editor.view = view := by
  cases k <;> rfl

theorem Valid.editor {s : k.Store} (hs : Valid s) : k.editor.Valid s := by
  cases k with
  | circular => exact WvCircularBufStore.Valid.toSized hs
  | linked => exact WvLinkedBufferStore.Inv.loose hs
  | _ => trivial

end Kind

end WvBufStore

end WvStreams
