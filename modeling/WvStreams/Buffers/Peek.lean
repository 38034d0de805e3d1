import WvStreams.Buffers.DynBuf

/-!
# Peeking into linked buffers

`mutablepeek` looks for the segment in which the offset lies, and if there are not enough bytes
behind it brings `count` of the segment's bytes together. These are counted from the beginning
of the segment and not from the offset, so that the region may still end behind them. The
bytes are shown exactly if that does not matter (`peeks_iff`): if the region lies within one
segment, or begins with one, or begins with bytes that were given back and a new segment takes
over all of them.
-/

namespace WvStreams

open Lib Lib.Ring WvBufStore List Option WvCircularBufStore

namespace Queue

theorem place_within (history front content : Str) (i : Nat) :
    (⟨history, content⟩ : Queue).place (front.length + i : Nat) = (history ++ front).length + i := by
  rw [place, length_append]
  dsimp only
  omega

theorem split_within (history front part back : Str) :
    history ++ (front ++ part ++ back) = history ++ front ++ part ++ back := by
  simp only [append_assoc]

theorem peek_within {history front part back : Str} {i count : Nat} (h : i + count ≤ part.length) :
    (⟨history, front ++ part ++ back⟩ : Queue).peek (front.length + i : Nat) count =
      slice part i count := by
  show slice _ _ _ = _
  rw [place_within, split_within]
  exact slice_within _ _ h

theorem write_within {history front part back bytes : Str} {i : Nat}
    (h : i + bytes.length ≤ part.length) :
    (⟨history, front ++ part ++ back⟩ : Queue).write (front.length + i : Nat) bytes =
      ⟨history, front ++ blit part i bytes ++ back⟩ := by
  show (⟨(blit _ _ _).take _, (blit _ _ _).drop _⟩ : Queue) = _
  rw [place_within, split_within, blit_within _ _ h, append_assoc history, append_assoc history,
    take_left, drop_left]

theorem write_content {history content bytes : Str} {i : Nat}
    (h : i + bytes.length ≤ content.length) :
    (⟨history, content⟩ : Queue).write (i : Nat) bytes = ⟨history, blit content i bytes⟩ := by
  have hwithin :
      (⟨history, [] ++ content ++ []⟩ : Queue).write (([] : Str).length + i : Nat) bytes =
        ⟨history, [] ++ blit content i bytes ++ []⟩ := write_within h
  rwa [length_nil, Nat.zero_add, nil_append, nil_append, append_nil, append_nil] at hwithin

theorem peek_content {history content : Str} {i count : Nat} (h : i + count ≤ content.length) :
    (⟨history, content⟩ : Queue).peek (i : Nat) count = slice content i count := by
  have hwithin :
      (⟨history, [] ++ content ++ []⟩ : Queue).peek (([] : Str).length + i : Nat) count =
        slice content i count := peek_within h
  rwa [length_nil, Nat.zero_add, nil_append, append_nil] at hwithin

section Back

variable {older history part : Str} {offset : Int}

theorem place_back (hlow : 0 ≤ history.length + offset) :
    (⟨older ++ history, part⟩ : Queue).place offset =
      older.length + (history.length + offset).toNat := by
  rw [place, length_append]
  omega

theorem peek_back (back : Str) {count : Nat} (hlow : 0 ≤ history.length + offset)
    (hhigh : (history.length + offset).toNat + count ≤ (history ++ part).length) :
    (⟨older ++ history, part⟩ : Queue).peek offset count =
      (⟨history, part ++ back⟩ : Queue).peek offset count := by
  have hone := slice_within older [] hhigh
  have htwo := slice_within [] back hhigh
  rw [append_nil, ← append_assoc] at hone
  rw [length_nil, Nat.zero_add, nil_append, append_assoc] at htwo
  show slice _ _ _ = slice _ _ _
  rw [place_back hlow]
  exact hone.trans htwo.symm

theorem write_back (back : Str) {bytes : Str} (hlow : 0 ≤ history.length + offset)
    (hhigh : (history.length + offset).toNat + bytes.length ≤ (history ++ part).length) :
    ∃ history' part', history'.length = history.length ∧
      (⟨older ++ history, part⟩ : Queue).write offset bytes = ⟨older ++ history', part'⟩ ∧
      (⟨history, part ++ back⟩ : Queue).write offset bytes = ⟨history', part' ++ back⟩ := by
  have hone := blit_within older [] hhigh
  have htwo := blit_within [] back hhigh
  rw [append_nil, ← append_assoc] at hone
  rw [length_nil, Nat.zero_add, nil_append, append_assoc] at htwo
  have hlen := length_blit hhigh
  rw [length_append] at hlen
  generalize blit (history ++ part) (history.length + offset).toNat bytes = all
    at hone htwo hlen
  have hle : history.length ≤ all.length := by omega
  refine ⟨all.take history.length, all.drop history.length, length_take_of_le hle, ?_, ?_⟩
  · show (⟨(blit _ _ _).take _, (blit _ _ _).drop _⟩ : Queue) = _
    rw [place_back hlow, hone, append_nil, length_append, take_length_add_append,
      drop_length_add_append]
  · show (⟨(blit _ _ _).take _, (blit _ _ _).drop _⟩ : Queue) = _
    rw [place, htwo, nil_append, take_append_of_le_length hle, drop_append_of_le_length hle]

end Back

end Queue

/-! ## Segments -/

namespace WvCircularBufStore

variable {offset : Int}

theorem peek_spec {s : WvCircularBufStore} (hs : Sized s) {count : Nat}
    (hcount : count ≤ s.peekable offset) :
    ∃ s' first, s.mutablepeek offset count = some (s', first) ∧ s'.view = s.view ∧
      slice s'.data first count = s.view.peek offset count ∧ ∀ bytes, bytes.length = count →
        ({ s' with data := blit s'.data first bytes } : WvCircularBufStore).view =
          s.view.write offset bytes := by
  have hspec : ∀ bytes : Str, bytes.length = count → _ := fun bytes hbytes =>
    mutablepeek_spec hs (hbytes.trans_le hcount)
  obtain ⟨s', first, hpeek, hview, -, hslice, -⟩ :=
    hspec (replicate count 0) length_replicate
  rw [length_replicate] at hpeek hslice
  refine ⟨s', first, hpeek, hview, hslice, ?_⟩
  rintro bytes rfl
  obtain ⟨s'', first', hpeek', -, -, -, hwrite, -⟩ := hspec bytes rfl
  rw [hpeek] at hpeek'
  obtain ⟨rfl, rfl⟩ := Prod.mk.inj (some.inj hpeek')
  exact hwrite

variable {s s' : WvCircularBufStore} {count first : Nat}

/-- A peek moves the bytes to the beginning of the array, or changes nothing. -/
theorem mutablepeek_cases (hs : Sized s) (h : s.mutablepeek offset count = some (s', first)) :
    s' = s ∨ s' = s.compacted := by
  have hkeep : s.head + s.totalused + s.xsize - s.totalinit = s.keepstart := by
    have hused := hs.used_le
    rw [keepstart, ungettable]
    omega
  rw [mutablepeek] at h
  by_cases hcount : count = 0
  · rw [if_pos hcount] at h
    cases h
    exact .inl rfl
  · rw [if_neg hcount] at h
    by_cases hassert : (if offset ≤ 0 then (-offset).toNat ≤ s.totalinit - s.totalused
        else offset.toNat < s.totalused)
    · rw [if_pos hassert, ensurecontiguous, if_neg (Nat.ne_of_gt hs.pos)] at h
      dsimp only at h
      split at h
      · simp only [if_true, hkeep] at h
        cases h
        exact .inr rfl
      · cases h
        exact .inl rfl
    · rw [if_neg hassert] at h
      cases h

theorem mutablepeek_sized (hs : Sized s) (h : s.mutablepeek offset count = some (s', first)) :
    Sized s' ∧ s'.totalused = s.totalused := by
  rcases mutablepeek_cases hs h with rfl | rfl
  · exact ⟨hs, rfl⟩
  · exact ⟨hs.sized_compacted, rfl⟩

theorem mutablepeek_view (hs : Sized s)
    (h : s.mutablepeek offset count = some (s', first)) : s'.view = s.view := by
  rcases mutablepeek_cases hs h with rfl | rfl
  · rfl
  · exact hs.compacted.2

theorem Sized.length_stored {s : WvCircularBufStore} (hs : Sized s) (first : Nat) (bytes : Str) :
    ({ s with data := blit s.data first bytes } : WvCircularBufStore).view.content.length =
      s.totalused := by
  have hlen := length_le_blit s.data first bytes
  have hsized : Sized { s with data := blit s.data first bytes } :=
    ⟨hs.pos.trans_le hlen, hs.used_le, hs.init_le.trans hlen⟩
  exact hsized.length_content

end WvCircularBufStore

namespace WvLinkedBufferStore

/-! ## The segment of an offset -/

variable {offset : Nat}

theorem searchLoop_spec {list : List WvCircularBufStore}
    (h : offset < (list.map WvCircularBufStore.used).sum) :
    ∃ front buf rest o, list = front ++ buf :: rest ∧
      searchLoop offset list = some (front.length, o) ∧ o < buf.used ∧
      offset = (front.map WvCircularBufStore.used).sum + o := by
  induction list generalizing offset with
  | nil => cases h
  | cons buf rest ih =>
    rw [map_cons, sum_cons] at h
    rw [searchLoop]
    by_cases hin : offset < buf.used
    · rw [if_pos hin]
      refine ⟨[], buf, rest, offset, rfl, rfl, hin, ?_⟩
      rw [map_nil, sum_nil, Nat.zero_add]
    · have hless : offset - buf.used < (rest.map WvCircularBufStore.used).sum := by omega
      obtain ⟨front, buf', rest', o, hlist, hloop, ho, hsum⟩ := ih hless
      rw [if_neg hin, hloop, hlist]
      refine ⟨buf :: front, buf', rest', o, rfl, rfl, ho, ?_⟩
      rw [map_cons, sum_cons]
      omega

theorem searchLoop_none {list : List WvCircularBufStore}
    (h : (list.map WvCircularBufStore.used).sum ≤ offset) : searchLoop offset list = none := by
  induction list generalizing offset with
  | nil => rfl
  | cons buf rest ih =>
    rw [map_cons, sum_cons] at h
    rw [searchLoop, if_neg (by omega), ih (by omega)]
    rfl

variable {s : WvLinkedBufferStore}

theorem optpeekable_zero (hs : Inv s) (h : s.totalused ≤ offset) : s.optpeekable offset = 0 := by
  rw [hs.total, content, length_contents hs.valid] at h
  have hneg : ¬ (offset : Int) < 0 := by omega
  have hsearch : s.search offset = none := by
    rw [search]
    split
    · rfl
    · rw [if_neg hneg, Int.toNat_natCast, searchLoop_none h]
      rfl
  rw [optpeekable, hsearch]

theorem not_start {front rest front' : List WvCircularBufStore} {buf : WvCircularBufStore} {o : Nat}
    (hfront : front' <+: front ++ buf :: rest) (hpos : 0 < o) (ho : o < buf.used) :
    (front'.map WvCircularBufStore.used).sum ≠ (front.map WvCircularBufStore.used).sum + o := by
  have hmono : ∀ {l l' : List WvCircularBufStore}, l <+: l' →
      (l.map WvCircularBufStore.used).sum ≤ (l'.map WvCircularBufStore.used).sum := by
    rintro l l' ⟨t, rfl⟩
    rw [map_append, sum_append]
    exact Nat.le_add_right _ _
  have hsum : ((front ++ [buf]).map WvCircularBufStore.used).sum =
      (front.map WvCircularBufStore.used).sum + buf.used := by
    rw [map_append, sum_append, map_singleton, sum_singleton]
  have hwith : front ++ [buf] <+: front ++ buf :: rest := ⟨rest, by rw [append_assoc]; rfl⟩
  rcases prefix_or_prefix_of_prefix hfront hwith with h | h
  · rcases prefix_concat_iff.mp h with rfl | h
    · omega
    · have hle := hmono h
      omega
  · have hle := hmono h
    omega

theorem search_sum (h : offset < (s.list.map WvCircularBufStore.used).sum) :
    ∃ front buf rest, ∃ o : Nat, s.list = front ++ buf :: rest ∧
      s.search offset = some (front.length, (o : Int)) ∧ o < buf.used ∧
      offset = (front.map WvCircularBufStore.used).sum + o := by
  obtain ⟨front, buf, rest, o, hlist, hloop, ho, hsum⟩ := searchLoop_spec h
  refine ⟨front, buf, rest, o, hlist, ?_, ho, hsum⟩
  have hneg : ¬ (offset : Int) < 0 := by omega
  rw [search]
  split
  · rename_i hnil
    rw [hnil] at hlist
    exact absurd hlist.symm (append_ne_nil_of_right_ne_nil _ (cons_ne_nil _ _))
  · rw [if_neg hneg, Int.toNat_natCast, hloop]
    rfl

theorem search_content (hs : Inv s) (h : offset < s.totalused) :
    ∃ front buf rest, ∃ o : Nat, s.list = front ++ buf :: rest ∧
      s.search offset = some (front.length, (o : Int)) ∧ o < buf.used ∧
      offset = (front.map WvCircularBufStore.used).sum + o := by
  rw [hs.total, content, length_contents hs.valid] at h
  exact search_sum h

theorem search_history {offset : Int} (hneg : offset < 0) (h : (-offset).toNat ≤ s.ungettable) :
    ∃ first rest, s.list = first :: rest ∧ s.search offset = some (0, offset) := by
  rw [ungettable] at h
  rw [search]
  cases hlist : s.list with
  | nil =>
    rw [hlist] at h
    dsimp only at h
    omega
  | cons first rest =>
    rw [hlist] at h
    dsimp only at h ⊢
    rw [if_pos hneg, if_pos (by omega)]
    exact ⟨first, rest, rfl, rfl⟩

/-- The segment of the offset, with those behind it, when `count` bytes are to be peeked at. -/
def enlarged (newbuffer : WvLinkedBufferStore → Nat → WvCircularBufStore) (s : WvLinkedBufferStore)
    (isfirst : Bool) (buf : WvCircularBufStore) (rest : List WvCircularBufStore) (offset : Int)
    (count : Nat) : Option (WvCircularBufStore × List WvCircularBufStore) :=
  if buf.peekable offset < count then coalesce newbuffer s isfirst buf rest count
  else some (buf, rest)

section Found

variable {newbuffer : WvLinkedBufferStore → Nat → WvCircularBufStore} {s : WvLinkedBufferStore}
  {front rest : List WvCircularBufStore} {buf : WvCircularBufStore}

theorem optpeekable_found {offset o : Int} (hlist : s.list = front ++ buf :: rest)
    (hsearch : s.search offset = some (front.length, o)) :
    s.optpeekable offset = buf.peekable o := by
  rw [optpeekable, hsearch]
  dsimp only
  rw [hlist, getElem?_append_right (le_refl _), Nat.sub_self]
  rfl

theorem mutablepeek_found {offset o : Int} {count : Nat} (hlist : s.list = front ++ buf :: rest)
    (hsearch : s.search offset = some (front.length, o)) (hcount : count ≠ 0) :
    s.mutablepeek newbuffer offset count =
      (enlarged newbuffer s (front.length = 0) buf rest o count).bind fun (buf, rest) =>
      (buf.mutablepeek o count).map fun (buf, first) =>
        ({ s with list := front ++ buf :: rest }, front.length, first) := by
  rw [mutablepeek, if_neg hcount, hsearch, bind_some]
  dsimp only
  rw [hlist, drop_left, take_left]
  rfl

theorem readAt_found (hlist : s.list = front ++ buf :: rest) (first count : Nat) :
    s.readAt front.length first count = slice buf.data first count := by
  rw [readAt, hlist, drop_left]

theorem storeAt_found (hlist : s.list = front ++ buf :: rest) (first : Nat) (bytes : Str) :
    s.storeAt front.length first bytes =
      { s with list := front ++ { buf with data := blit buf.data first bytes } :: rest } := by
  rw [storeAt, hlist, drop_left, take_left]

end Found

/-! ## What a peek should do -/

theorem lastBytes_same {n : Nat} {older s t : Str} (h : lastBytes n (older ++ s) = s)
    (hlen : t.length = s.length) : lastBytes n (older ++ t) = t := by
  have hmin := congrArg length h
  rw [length_lastBytes, length_append] at hmin
  rw [lastBytes, length_append, hlen]
  by_cases hle : n ≤ older.length + s.length
  · have hdrop : older.length + s.length - n = older.length := by omega
    rw [hdrop, drop_left]
  · have hnil : older = [] := eq_nil_of_length_eq_zero (by omega)
    have hdrop : older.length + s.length - n = 0 := by omega
    rw [hdrop, hnil]
    rfl

def view (s : WvLinkedBufferStore) : Queue := ⟨s.history, s.content⟩

/-- The content is that of the queue. Some of the oldest history may be lost, but none of that
which the offset reaches. -/
structure Replaced (offset : Int) (q q' : Queue) : Prop where
  content : q'.content = q.content
  history : q'.history <:+ q.history
  reached : (-offset).toNat ≤ q'.history.length

/-- The call succeeds and shows the bytes. It changes nothing, and what is stored at its pointer
replaces just these bytes. -/
def Peeks (newbuffer : WvLinkedBufferStore → Nat → WvCircularBufStore) (s : WvLinkedBufferStore)
    (offset : Int) (count : Nat) : Prop :=
  ∃ s' i first, s.mutablepeek newbuffer offset count = some (s', i, first) ∧
    s'.readAt i first count = s.view.peek offset count ∧ s'.content = s.content ∧
    ∀ bytes, bytes.length = count →
      Replaced offset (s.view.write offset bytes) (s'.storeAt i first bytes).view

/-- The region lies within one segment, or begins with one. Or it begins with bytes that were
given back and ends in another segment, when the first one has no room for what the `count`
bytes from its beginning need. -/
def Sound (s : WvLinkedBufferStore) (offset : Int) (count : Nat) : Prop :=
  count ≤ s.optpeekable offset ∨
  (∃ front, front <+: s.list ∧ offset = ((front.map WvCircularBufStore.used).sum : Nat)) ∨
  (offset < 0 ∧ count ≤ s.used ∧ ∃ first, s.list.head? = some first ∧
    first.free < count - first.used)

section Peeks

variable {newbuffer : WvLinkedBufferStore → Nat → WvCircularBufStore} {s : WvLinkedBufferStore}

theorem peeks_zero (newbuffer : WvLinkedBufferStore → Nat → WvCircularBufStore)
    (s : WvLinkedBufferStore) {offset : Int} (hoffset : (-offset).toNat ≤ s.history.length) :
    s.Peeks newbuffer offset 0 := by
  refine ⟨s, 0, 0, if_pos rfl, ?_, rfl, ?_⟩
  · rw [readAt, Queue.peek, take_zero]
    split
    · rfl
    · rw [slice_zero]
  · intro bytes hbytes
    obtain rfl := length_eq_zero_iff.mp hbytes
    have hstore : s.storeAt 0 0 [] = s := by
      rw [storeAt]
      cases hlist : s.list.drop 0 with
      | nil => rfl
      | cons buf rest =>
        dsimp only
        rw [blit_nil, ← hlist, take_append_drop]
    have hwrite : s.view.write offset [] = s.view := by
      show (⟨(blit _ _ _).take _, (blit _ _ _).drop _⟩ : Queue) = _
      rw [blit_nil, take_left, drop_left]
    rw [hstore, hwrite]
    exact ⟨rfl, suffix_refl _, hoffset⟩

variable {front rest rest' : List WvCircularBufStore} {buf buf' : WvCircularBufStore}

variable {count : Nat}

theorem peeks_content {o : Nat} (hlist : s.list = front ++ buf :: rest)
    (hsearch : s.search ((contents front).length + o : Nat) = some (front.length, (o : Int)))
    (hcount : count ≠ 0)
    (hsegment : enlarged newbuffer s (front.length = 0) buf rest o count = some (buf', rest'))
    (hvalid : buf'.Valid) (hcontents : contents (buf' :: rest') = contents (buf :: rest))
    (hkept : lastBytes s.maxungettable buf'.view.history <:+
      lastBytes s.maxungettable buf.view.history) (hle : o + count ≤ buf'.view.content.length) :
    s.Peeks newbuffer ((contents front).length + o : Nat) count := by
  have hpeekable : count ≤ buf'.peekable o := by
    have hlen := hvalid.length_content
    rw [WvCircularBufStore.peekable, WvBufStore.peekable, WvCircularBufStore.used]
    split
    · omega
    · rw [if_neg (by omega)]
      omega
  obtain ⟨buf'', first, hpeek, hview, hread, hstore⟩ :=
    peek_spec hvalid.toSized hpeekable
  have hcontent : s.content = contents front ++ buf'.view.content ++ contents rest' := by
    rw [content, hlist, contents_append, ← hcontents, contents_cons, append_assoc]
  have hsview : s.view = ⟨s.history, contents front ++ buf'.view.content ++ contents rest'⟩ := by
    rw [view, hcontent]
  have hshown : buf'.view.peek o count = slice buf'.view.content o count := Queue.peek_content hle
  refine ⟨{ s with list := front ++ buf'' :: rest' }, front.length, first, ?_, ?_, ?_, ?_⟩
  · rw [mutablepeek_found hlist hsearch hcount, hsegment, bind_some]
    dsimp only
    rw [hpeek]
    rfl
  · rw [readAt_found rfl, hread, hshown, hsview, Queue.peek_within hle]
  · rw [hcontent, content]
    rw [contents_append, contents_cons, hview, append_assoc]
  · intro bytes hbytes
    have hle' : o + bytes.length ≤ buf'.view.content.length := by omega
    have hstored : _ = (⟨buf'.view.history, blit buf'.view.content o bytes⟩ : Queue) :=
      (hstore bytes hbytes).trans (Queue.write_content hle')
    rw [storeAt_found rfl, hsview, Queue.write_within hle']
    generalize ({ buf'' with data := blit buf''.data first bytes } : WvCircularBufStore) = stored
      at hstored ⊢
    refine ⟨?_, ?_, ?_⟩
    · show contents (front ++ stored :: rest') = _
      rw [contents_append, contents_cons, hstored, append_assoc]
    · show history { s with list := front ++ stored :: rest' } <:+ s.history
      rw [history, history, hlist]
      cases front with
      | nil =>
        show lastBytes _ stored.view.history <:+ _
        rw [hstored]
        exact hkept
      | cons first front => exact suffix_refl _
    · omega

variable {offset : Int}

theorem peeks_history {older : Str} (hneg : offset < 0)
    (hlist : s.list = buf :: rest) (hsearch : s.search offset = some (0, offset))
    (hcount : count ≠ 0)
    (hsegment : enlarged newbuffer s true buf rest offset count = some (buf', rest'))
    (hvalid : buf'.Valid) (hcontents : contents (buf' :: rest') = contents (buf :: rest))
    (hhistory : buf'.view.history = older ++ s.history)
    (hlast : lastBytes s.maxungettable (older ++ s.history) = s.history)
    (hoffset : (-offset).toNat ≤ s.history.length)
    (hle : count ≤ (-offset).toNat + buf'.view.content.length) :
    s.Peeks newbuffer offset count := by
  have hlow : 0 ≤ s.history.length + offset := by omega
  have hhigh : (s.history.length + offset).toNat + count ≤
      (s.history ++ buf'.view.content).length := by
    rw [length_append]
    omega
  have hpeekable : count ≤ buf'.peekable offset := by
    have hlen := hvalid.length_content
    have hlenh := hvalid.length_history
    rw [hhistory, length_append] at hlenh
    rw [WvCircularBufStore.peekable, WvBufStore.peekable, WvCircularBufStore.used,
      if_neg (by omega), if_pos hneg, if_pos (by omega)]
    omega
  obtain ⟨buf'', first, hpeek, hview, hread, hstore⟩ :=
    peek_spec hvalid.toSized hpeekable
  have hcontent : s.content = buf'.view.content ++ contents rest' := by
    rw [content, hlist, ← hcontents, contents_cons]
  have hsview : s.view = ⟨s.history, buf'.view.content ++ contents rest'⟩ := by
    rw [view, hcontent]
  have hself : buf'.view = ⟨older ++ s.history, buf'.view.content⟩ := by
    rw [← hhistory]
  have hlist' : s.list = [] ++ buf :: rest := hlist
  have hsearch' : s.search offset = some (([] : List WvCircularBufStore).length, offset) := hsearch
  refine ⟨{ s with list := [] ++ buf'' :: rest' }, ([] : List WvCircularBufStore).length, first,
    ?_, ?_, ?_, ?_⟩
  · rw [mutablepeek_found hlist' hsearch' hcount]
    show Option.bind (enlarged newbuffer s true buf rest offset count) _ = _
    rw [hsegment, Option.bind_some]
    dsimp only
    rw [hpeek]
    rfl
  · rw [readAt_found rfl, hread, hself, hsview, Queue.peek_back _ hlow hhigh]
  · rw [hcontent, content]
    rw [nil_append, contents_cons, hview]
  · intro bytes hbytes
    rw [← hbytes] at hhigh
    obtain ⟨history', part', hlen, hone, htwo⟩ := Queue.write_back (contents rest') hlow hhigh
    have hstored := hstore bytes hbytes
    rw [hself, hone] at hstored
    rw [storeAt_found rfl, hsview, htwo]
    generalize ({ buf'' with data := blit buf''.data first bytes } : WvCircularBufStore) = stored
      at hstored ⊢
    have hshown : history { s with list := [] ++ stored :: rest' } = history' := by
      show lastBytes _ stored.view.history = _
      rw [hstored]
      exact lastBytes_same hlast hlen
    refine ⟨?_, ?_, ?_⟩
    · show contents (stored :: rest') = _
      rw [contents_cons, hstored]
    · show history { s with list := [] ++ stored :: rest' } <:+ _
      rw [hshown]
    · show _ ≤ (history { s with list := [] ++ stored :: rest' }).length
      rw [hshown, hlen]
      exact hoffset

/-! ## Where it fails -/

theorem not_peeks_content (hnew : Fresh newbuffer) (hs : Inv s) {o : Nat}
    (hlist : s.list = front ++ buf :: rest)
    (hsearch : s.search ((contents front).length + o : Nat) = some (front.length, (o : Int)))
    (hpos : 0 < o) (ho : o < buf.used) (hmore : buf.used < o + count)
    (hcount : (contents front).length + o + count ≤ s.content.length) :
    ¬ s.Peeks newbuffer ((contents front).length + o : Nat) count := by
  rintro ⟨s', i, first, hpeek, -, -, hreplaced⟩
  have hvalids : ∀ b ∈ buf :: rest, b.Valid := fun b hb =>
    hs.valid b (hlist ▸ mem_append_right _ hb)
  obtain ⟨hbuf, hrest⟩ := forall_mem_cons.mp hvalids
  have hcontent : s.content = contents front ++ contents (buf :: rest) := by
    rw [content, hlist, contents_append]
  have henough : count ≤ (contents (buf :: rest)).length := by
    rw [hcontent, length_append] at hcount
    omega
  obtain ⟨buf', rest', hcoalesce, hbuf', -, -, hlen, -⟩ :=
    coalesce_keeps hnew s (front.length = 0) hbuf hrest henough
  have hpeekable : buf.peekable o < count := by
    rw [WvCircularBufStore.peekable, WvBufStore.peekable, if_neg (by omega), if_neg (by omega)]
    omega
  rw [mutablepeek_found hlist hsearch (by omega), enlarged, if_pos hpeekable, hcoalesce,
    bind_some] at hpeek
  dsimp only at hpeek
  cases hsegment : buf'.mutablepeek o count with
  | none =>
    rw [hsegment] at hpeek
    cases hpeek
  | some r =>
    obtain ⟨buf'', first'⟩ := r
    rw [hsegment] at hpeek
    obtain ⟨rfl, hi⟩ := Prod.mk.inj (some.inj hpeek)
    obtain ⟨rfl, rfl⟩ := Prod.mk.inj hi
    obtain ⟨hsized, hused⟩ := mutablepeek_sized hbuf'.toSized hsegment
    rw [hbuf'.length_content] at hlen
    -- the last byte of the region is not stored
    have hlast : ∀ b : Byte, (contents rest')[o + (count - 1) - buf''.totalused]? = some b := by
      intro b
      have hbytes : (replicate count b).length = count := length_replicate
      have hwrite := (hreplaced _ hbytes).content
      have hregion := hbytes.symm ▸ hcount
      have hstored := hsized.length_stored first' (replicate count b)
      rw [view, storeAt_found rfl, view, Queue.write_content hregion, content] at hwrite
      rw [contents_append, contents_cons] at hwrite
      generalize WvCircularBufStore.view { buf'' with
        data := blit buf''.data first' (replicate count b) } = stored at hwrite hstored
      have hplace :=
        congrArg (fun s : Str => s[(contents front).length + (o + (count - 1))]?) hwrite
      have htake : (s.content.take ((contents front).length + o)).length =
          (contents front).length + o := length_take_of_le (by omega)
      rw [getElem?_append_right (by omega), Nat.add_sub_cancel_left,
        getElem?_append_right (by omega), hstored, blit,
        getElem?_append_left (by rw [length_append]; omega),
        getElem?_append_right (by omega), htake, ← Nat.add_assoc, Nat.add_sub_cancel_left,
        getElem?_replicate, if_pos (by omega)] at hplace
      exact hplace
    exact absurd (some.inj ((hlast 0).symm.trans (hlast 1))) (by decide)

theorem coalesceLoop_none {needed mustskip : Nat} (hrest : ∀ b ∈ rest, b.Valid)
    (hmore : (contents rest).length < needed) : coalesceLoop buf needed mustskip rest = none := by
  induction rest generalizing buf needed with
  | nil => rfl
  | cons itbuf rest ih =>
    obtain ⟨hitbuf, hrest⟩ := forall_mem_cons.mp hrest
    have hlen := hitbuf.length_content
    rw [contents_cons, length_append, hlen] at hmore
    rw [coalesceLoop]
    by_cases hempty : itbuf.used = 0
    · rw [if_pos hempty]
      exact ih hrest (by omega)
    · rw [if_neg hempty]
      dsimp only
      have hused : itbuf.used = itbuf.totalused := rfl
      have hmin : min itbuf.used needed = itbuf.used := by omega
      rw [hmin]
      cases hmerge : buf.merge itbuf itbuf.used with
      | none => rfl
      | some r =>
        rw [bind_some]
        rw [if_neg (by omega)]
        exact ih hrest (by omega)

theorem coalesce_none {isfirst : Bool} (hbuf : buf.Valid) (hrest : ∀ b ∈ rest, b.Valid)
    (hmore : (contents (buf :: rest)).length < count) :
    coalesce newbuffer s isfirst buf rest count = none := by
  have hused : buf.used = buf.view.content.length := hbuf.length_content.symm
  have hlen := hmore
  rw [contents_cons, length_append] at hlen
  have hall := forall_mem_cons.mpr ⟨hbuf, hrest⟩
  rw [coalesce, if_neg (by omega)]
  split
  · split
    · obtain ⟨buf', hunget, hview, hvalid⟩ :=
        WvCircularBufStore.unget_spec hbuf (Nat.min_le_left buf.ungettable s.maxungettable)
      have hback : (contents (buf' :: rest)).length <
          count + min buf.ungettable s.maxungettable := by
        have hlenh := hbuf.length_history
        rw [contents_cons, hview, length_append, Queue.unget, length_append, length_drop]
        omega
      dsimp only
      rw [hunget, bind_some]
      exact coalesceLoop_none (forall_mem_cons.mpr ⟨hvalid, hrest⟩) hback
    · exact coalesceLoop_none hall hmore
  · exact coalesceLoop_none hrest (by omega)

theorem not_peeks_history (hnew : Fresh newbuffer) (hneg : offset < 0)
    (hlist : s.list = buf :: rest) (hvalids : ∀ b ∈ buf :: rest, b.Valid)
    (hsearch : s.search offset = some (0, offset)) (hmore : buf.peekable offset < count)
    (hused : buf.used < count)
    (hfails : (contents (buf :: rest)).length < count ∨ count - buf.used ≤ buf.free) :
    ¬ s.Peeks newbuffer offset count := by
  rintro ⟨s', i, first, hpeek, -⟩
  obtain ⟨hbuf, hrest⟩ := forall_mem_cons.mp hvalids
  have hlist' : s.list = [] ++ buf :: rest := hlist
  have hsearch' : s.search offset = some (([] : List WvCircularBufStore).length, offset) := hsearch
  rw [mutablepeek_found hlist' hsearch' (by omega), enlarged, if_pos hmore] at hpeek
  by_cases henough : count ≤ (contents (buf :: rest)).length
  · -- the segment forgets its history when it gets more bytes
    have hroom : count - buf.used ≤ buf.free := hfails.resolve_left (Nat.not_lt.mpr henough)
    obtain ⟨buf', rest', hcoalesce, hbuf', -, -, -, hhistory⟩ :=
      coalesce_spec hnew s (([] : List WvCircularBufStore).length = 0) hbuf hrest hused henough
    rw [if_neg fun h => absurd h.1 (Nat.not_lt.mpr hroom)] at hhistory
    have hnone : buf'.totalinit - buf'.totalused = 0 := by
      have hlen := hbuf'.length_history
      rw [hhistory] at hlen
      exact hlen.symm
    have hassert : ¬ (if offset ≤ 0 then (-offset).toNat ≤ buf'.totalinit - buf'.totalused
        else offset.toNat < buf'.totalused) := by
      rw [if_pos hneg.le]
      omega
    have hpeek' : buf'.mutablepeek offset count = none := by
      rw [WvCircularBufStore.mutablepeek, if_neg (by omega), if_neg hassert]
    rw [hcoalesce, bind_some] at hpeek
    dsimp only at hpeek
    rw [hpeek'] at hpeek
    cases hpeek
  · rw [coalesce_none hbuf hrest (Nat.lt_of_not_le henough)] at hpeek
    cases hpeek

theorem peeks_iff_content (hnew : Fresh newbuffer) (hs : Inv s) {offset : Nat} (hzero : count ≠ 0)
    (hcount : count ≤ s.optpeekable offset ∨ count ≤ s.peekable offset) :
    s.Peeks newbuffer offset count ↔ s.Sound offset count := by
  have hlt : offset < s.totalused := by
    by_contra hle
    rw [optpeekable_zero hs (Nat.le_of_not_lt hle), peekable, WvBufStore.peekable, used] at hcount
    split at hcount
    · omega
    · rw [if_neg (by omega)] at hcount
      omega
  obtain ⟨front, buf, rest, o, hlist, hsearch, ho, hsum⟩ := search_content hs hlt
  have hall : ∀ b ∈ front ++ buf :: rest, b.Valid := fun b hb => hs.valid b (hlist ▸ hb)
  obtain ⟨hbuf, hrest⟩ := forall_mem_cons.mp fun b hb => hall b (mem_append_right _ hb)
  have hlen := length_contents fun b hb => hall b (mem_append_left (buf :: rest) hb)
  have hcontent : s.content.length = (contents front).length + (contents (buf :: rest)).length := by
    rw [content, hlist, contents_append, length_append]
  have hused : buf.view.content.length = buf.used := hbuf.length_content
  have hpeekable : buf.peekable o = buf.used - o := by
    rw [WvCircularBufStore.peekable, WvBufStore.peekable]
    split
    · omega
    · rw [if_neg (by omega)]
      omega
  have hopt := optpeekable_found hlist hsearch
  have hregion : offset + count ≤ s.content.length := by
    rcases hcount with h | h
    · have hfirst := congrArg length (contents_cons buf rest)
      rw [length_append] at hfirst
      omega
    · rw [← hs.total]
      rw [peekable, WvBufStore.peekable, used] at h
      split at h
      · omega
      · rw [if_neg (by omega)] at h
        omega
  rw [← hlen] at hsum
  subst hsum
  by_cases hin : count ≤ buf.peekable o
  · have hsegment : enlarged newbuffer s (front.length = 0) buf rest o count = some (buf, rest) :=
      if_neg (Nat.not_lt.mpr hin)
    refine ⟨fun _ => Or.inl (hin.trans_eq hopt.symm), fun _ => ?_⟩
    exact peeks_content hlist hsearch hzero hsegment hbuf rfl (suffix_refl _) (by omega)
  · by_cases hstart : o = 0
    · subst hstart
      have henough : count ≤ (contents (buf :: rest)).length := by omega
      obtain ⟨buf', rest', hcoalesce, hbuf', -, hcontents, hlen', hkept⟩ :=
        coalesce_keeps hnew s (front.length = 0) hbuf hrest henough
      have hsegment : enlarged newbuffer s (front.length = 0) buf rest (0 : Nat) count =
          some (buf', rest') := (if_pos (Nat.lt_of_not_le hin)).trans hcoalesce
      refine ⟨fun _ => Or.inr (Or.inl ⟨front, ?_, ?_⟩), fun _ => ?_⟩
      · rw [hlist]
        exact prefix_append _ _
      · rw [Nat.add_zero, hlen]
      · exact peeks_content hlist hsearch hzero hsegment hbuf' hcontents hkept (by omega)
    · refine ⟨fun h => absurd h ?_, fun h => ?_⟩
      · exact not_peeks_content hnew hs hlist hsearch (Nat.pos_of_ne_zero hstart) ho (by omega)
          hregion
      · rcases h with h | ⟨front', hfront, heq⟩ | ⟨hneg, -⟩
        · exact absurd (h.trans_eq hopt) hin
        · rw [hlist] at hfront
          exact absurd (by omega) (not_start hfront (Nat.pos_of_ne_zero hstart) ho)
        · omega

theorem peeks_iff_history (hnew : Fresh newbuffer) (hs : Inv s) (hzero : count ≠ 0)
    (hneg : offset < 0) (hback : (-offset).toNat ≤ s.ungettable) :
    s.Peeks newbuffer offset count ↔ s.Sound offset count := by
  obtain ⟨first, rest, hlist, hsearch⟩ := search_history hneg hback
  have hlist' : s.list = [] ++ first :: rest := hlist
  have hsearch' : s.search offset = some (([] : List WvCircularBufStore).length, offset) := hsearch
  have hopt := optpeekable_found hlist' hsearch'
  have hvalids : ∀ b ∈ first :: rest, b.Valid := fun b hb => hs.valid b (hlist ▸ hb)
  obtain ⟨hfirst, hrest⟩ := forall_mem_cons.mp hvalids
  have hhistory : s.history = lastBytes s.maxungettable first.view.history := by
    rw [history, hlist]
  have hcontent : s.content = contents (first :: rest) := by
    rw [content, hlist]
  have hused : first.view.content.length = first.used := hfirst.length_content
  have hpeekable : first.peekable offset = (-offset).toNat + first.used := by
    rw [ungettable, hlist] at hback
    dsimp only at hback
    rw [WvCircularBufStore.peekable, WvBufStore.peekable, if_neg (by omega), if_pos hneg,
      if_pos (by omega)]
  rw [hs.ungettable] at hback
  by_cases hin : count ≤ first.peekable offset
  · obtain ⟨older, holder⟩ := lastBytes_suffix s.maxungettable first.view.history
    rw [← hhistory] at holder
    have hlast : lastBytes s.maxungettable (older ++ s.history) = s.history := by
      rw [holder, hhistory]
    have hsegment : enlarged newbuffer s true first rest offset count = some (first, rest) :=
      if_neg (Nat.not_lt.mpr hin)
    refine ⟨fun _ => Or.inl (hin.trans_eq hopt.symm), fun _ => ?_⟩
    exact peeks_history hneg hlist hsearch hzero hsegment hfirst rfl holder.symm hlast hback
      (by omega)
  · have hmore : first.peekable offset < count := Nat.lt_of_not_le hin
    have hshort : first.used < count := by omega
    by_cases hsound : count ≤ s.used ∧ first.free < count - first.used
    · -- a new segment takes over all that was given back
      have htotal : s.totalused ≠ 0 := by
        have hle : count ≤ s.totalused := hsound.1
        omega
      have henough : count ≤ (contents (first :: rest)).length := by
        rw [← hcontent, ← hs.total]
        exact hsound.1
      obtain ⟨buf', rest', hcoalesce, hbuf', -, htake, hdrop, hkept⟩ :=
        coalesce_spec hnew s true hfirst hrest hshort henough
      rw [if_pos ⟨hsound.2, rfl, htotal⟩, ← hhistory] at hkept
      have hsegment : enlarged newbuffer s true first rest offset count = some (buf', rest') :=
        (if_pos hmore).trans hcoalesce
      have hcontents : contents (buf' :: rest') = contents (first :: rest) := by
        rw [contents_cons, htake, hdrop, take_append_drop]
      have hlast : lastBytes s.maxungettable ([] ++ s.history) = s.history := by
        rw [nil_append, hhistory, lastBytes_lastBytes]
      have hle : count ≤ (-offset).toNat + buf'.view.content.length := by
        rw [htake, length_take_of_le henough]
        omega
      refine ⟨fun _ => Or.inr (Or.inr ⟨hneg, hsound.1, first, ?_, hsound.2⟩), fun _ => ?_⟩
      · rw [hlist, head?_cons]
      · exact peeks_history hneg hlist hsearch hzero hsegment hbuf' hcontents hkept hlast hback hle
    · have hfails : (contents (first :: rest)).length < count ∨
          count - first.used ≤ first.free := by
        rw [← hcontent, ← hs.total]
        rw [used] at hsound
        omega
      refine ⟨fun h => absurd h ?_, fun h => ?_⟩
      · exact not_peeks_history hnew hneg hlist hvalids hsearch hmore hshort hfails
      · rcases h with h | ⟨front, -, heq⟩ | ⟨-, hle, first', hhead, hfree⟩
        · exact absurd (h.trans_eq hopt) hin
        · omega
        · rw [hlist, head?_cons] at hhead
          obtain rfl := some.inj hhead
          exact absurd ⟨hle, hfree⟩ hsound

theorem peeks_iff_sound (hnew : Fresh newbuffer) (hs : Inv s)
    (hoffset : -(s.ungettable : Int) ≤ offset)
    (hcount : count ≤ s.optpeekable offset ∨ count ≤ s.peekable offset) :
    s.Peeks newbuffer offset count ↔ s.Sound offset count := by
  have hback : (-offset).toNat ≤ s.ungettable := by omega
  by_cases hzero : count = 0
  · subst hzero
    exact ⟨fun _ => Or.inl (Nat.zero_le _),
      fun _ => peeks_zero newbuffer s (hback.trans_eq hs.ungettable)⟩
  · by_cases hneg : offset < 0
    · exact peeks_iff_history hnew hs hzero hneg hback
    · obtain ⟨offset, rfl⟩ := Int.eq_ofNat_of_zero_le (Int.not_lt.mp hneg)
      exact peeks_iff_content hnew hs hzero hcount

end Peeks

end WvLinkedBufferStore

/-! ## What the calls keep -/

namespace WvCircularBufStore

theorem alloc_valid {s s' : WvCircularBufStore} (hs : Valid s) {n first : Nat}
    (h : s.alloc n = some (s', first)) : Valid s' ∧ s'.totalused = s.totalused + n := by
  have hfree : n ≤ s.free := by
    by_contra hmore
    have hnone : s.alloc n = none := if_neg hmore
    rw [hnone] at h
    cases h
  have hbytes : (replicate n (0 : Byte)).length = n := length_replicate
  obtain ⟨s'', first', halloc, hview, hvalid⟩ := alloc_spec hs (hbytes.trans_le hfree)
  rw [hbytes, h] at halloc
  obtain ⟨rfl, rfl⟩ := Prod.mk.inj (some.inj halloc)
  have hused : s'.totalused = s.totalused + n := by
    have hlen := congrArg (fun q => q.content.length) hview
    have hlen' : s'.totalused = (s.view.content ++ replicate n 0).length :=
      hvalid.length_content.symm.trans hlen
    rw [hlen', length_append, hs.length_content, hbytes]
  refine ⟨?_, hused⟩
  by_cases hzero : n = 0
  · subst hzero
    rw [replicate_zero, blit_nil] at hvalid
    exact hvalid
  · obtain ⟨hroom, -⟩ := alloc_room hs (Nat.pos_of_ne_zero hzero) hfree h
    have hlen : (blit s'.data first (replicate n 0)).length = s'.data.length :=
      length_blit (by rw [hbytes]; exact hroom)
    exact hvalid.with_data hlen.symm

end WvCircularBufStore

namespace WvLinkedBufferStore

variable {s' : WvLinkedBufferStore}

variable {s : WvLinkedBufferStore}

theorem get_keeps {newbuffer : WvLinkedBufferStore → Nat → WvCircularBufStore}
    (hnew : Fresh newbuffer) (hs : Inv s) {count first : Nat}
    (h : s.get newbuffer count = some (s', first)) : Inv s' := by
  have hcount : count ≤ s.totalused := by
    by_contra hmore
    have hnone : s.get newbuffer count = none := by
      rw [WvLinkedBufferStore.get, if_neg (by omega), if_neg hmore]
    rw [hnone] at h
    cases h
  obtain ⟨s'', first', kept, hget, hinv, -⟩ := get_spec hnew hs hcount
  rw [h] at hget
  obtain ⟨rfl, -⟩ := Prod.mk.inj (some.inj hget)
  exact hinv

theorem unalloc_keeps (hs : Inv s) {count : Nat} (h : s.unalloc count = some s') : Inv s' := by
  have hcount : count ≤ s.totalused := by
    by_contra hmore
    have hnone : s.unalloc count = none := if_neg hmore
    rw [hnone] at h
    cases h
  obtain ⟨s'', hunalloc, hinv, -⟩ := unalloc_spec hs hcount
  rw [h] at hunalloc
  obtain rfl := some.inj hunalloc
  exact hinv

theorem alloc_keeps (hs : Inv s) {count first : Nat}
    (h : s.alloc count = some (s', first)) : Inv s' := by
  rw [alloc] at h
  split at h
  · obtain ⟨rfl, -⟩ := Prod.mk.inj (some.inj h)
    exact hs
  · obtain ⟨buf, hlast, h⟩ := bind_eq_some_iff.mp h
    obtain ⟨⟨buf', place⟩, halloc, heq⟩ := map_eq_some_iff.mp h
    obtain ⟨rfl, -⟩ := Prod.mk.inj heq
    obtain ⟨front, hlist⟩ := getLast?_eq_some_iff.mp hlast
    have hbuf := hs.valid buf (mem_of_getLast? hlast)
    obtain ⟨hbuf', hused⟩ := alloc_valid hbuf halloc
    have hinv := hs.replace_last hlist hbuf' hused
    rw [hlist, dropLast_concat]
    exact hinv

theorem store_keeps (hs : Inv s) (first : Nat) (bytes : Str) : Inv (s.store first bytes) := by
  cases hlast : s.list.getLast? with
  | none =>
    rw [store, hlast]
    exact hs
  | some buf =>
    obtain ⟨front, hlist⟩ := getLast?_eq_some_iff.mp hlast
    have hbuf := hs.valid buf (mem_of_getLast? hlast)
    have hlen := length_le_blit buf.data first bytes
    have hbuf' : WvCircularBufStore.Valid { buf with data := blit buf.data first bytes } :=
      ⟨⟨hbuf.pos.trans_le hlen, hbuf.used_le, hbuf.init_le.trans hlen⟩, hbuf.head_lt.trans_le hlen⟩
    rw [store_concat hlist]
    exact hs.replace_last hlist hbuf' (n := 0) rfl

end WvLinkedBufferStore

/-! ## The stores that clients have -/

/-- A linked buffer of either class. -/
inductive LinkedStore where
  | plain (granularity : { n : Nat // 0 < n }) (s : WvLinkedBufferStore)
  | dyn (s : WvDynBufStore)
  deriving DecidableEq

namespace LinkedStore

open WvLinkedBufferStore

def segments : LinkedStore → WvLinkedBufferStore
  | .plain _ s => s
  | .dyn s => s.toWvLinkedBufferStore

def relink : LinkedStore → WvLinkedBufferStore → LinkedStore
  | .plain granularity _, s => .plain granularity s
  | .dyn s, linked => .dyn (s.relink linked)

def newbuffer : LinkedStore → WvLinkedBufferStore → Nat → WvCircularBufStore
  | .plain granularity _ => WvLinkedBufferStore.newbuffer granularity
  | .dyn s => s.newbuffer

def optallocable : LinkedStore → Nat
  | .plain _ s => s.optallocable
  | .dyn s => s.optallocable

def alloc : LinkedStore → Nat → Option (LinkedStore × Nat)
  | .plain granularity s, count =>
    (s.alloc count).map fun (s, first) => (.plain granularity s, first)
  | .dyn s, count => (s.alloc count).map fun (s, first) => (.dyn s, first)

def get (s : LinkedStore) (count : Nat) : Option (LinkedStore × Nat) :=
  (s.segments.get s.newbuffer count).map fun (linked, first) => (s.relink linked, first)

def sink : WvBufStore.Sink LinkedStore where
  optallocable := optallocable
  alloc := alloc
  unalloc s count := (s.segments.unalloc count).map s.relink
  store s first bytes := s.relink (s.segments.store first bytes)

def source : WvBufStore.Source LinkedStore where
  optgettable s := s.segments.optgettable
  get s count := (s.get count).map fun (s, first) => (s, s.segments.read first count)

def put (s : LinkedStore) (data : Str) : Option LinkedStore := WvBufStore.put sink s data

/-- The loop of `merge`: as long as the first segment of the other store has no more bytes than
are to be moved, the whole of it is appended here. The other's segments are given apart. -/
def stealLoop (s instore : WvLinkedBufferStore) (count : Nat) :
    List WvCircularBufStore → WvLinkedBufferStore × WvLinkedBufferStore × Nat
  | [] => (s, instore, count)
  | buf :: rest =>
    if buf.used > count then (s, instore, count)
    else
      let s := s.appendsubbuffer buf
      -- `unlinksubbuffer`
      let instore : WvLinkedBufferStore :=
        { list := rest, totalused := instore.totalused - buf.used, maxungettable := 0 }
      if count - buf.used = 0 then (s, instore, 0)
      else stealLoop s instore (count - buf.used) rest

def merge (s instore : LinkedStore) (count : Nat) : Option (LinkedStore × LinkedStore) :=
  if count = 0 then some (s, instore)
  else
    let r := stealLoop s.segments instore.segments count instore.segments.list
    WvBufStore.basicmerge sink source (s.relink r.1) (instore.relink r.2.1) r.2.2

/-- What gets, puts and merges make of new stores. Stores of other kinds copy the bytes. -/
inductive Reached : LinkedStore → Prop
  | plain (granularity : { n : Nat // 0 < n }) : Reached (.plain granularity {})
  | dyn (granularity minalloc maxalloc : Nat) (pos : 0 < granularity) (le : minalloc ≤ maxalloc) :
    Reached (.dyn (.new granularity minalloc maxalloc pos le))
  | get {s s' : LinkedStore} {count first : Nat} :
    Reached s → s.get count = some (s', first) → Reached s'
  | put {s s' : LinkedStore} {data : Str} : Reached s → s.put data = some s' → Reached s'
  | merge {s s' t t' : LinkedStore} {count : Nat} :
    Reached s → Reached t → s.merge t count = some (s', t') → Reached s'
  | merged {s s' t t' : LinkedStore} {count : Nat} :
    Reached s → Reached t → s.merge t count = some (s', t') → Reached t'
  | copy {s s' : LinkedStore} {τ : Type} {other : WvBufStore.Source τ} {t t' : τ} {count : Nat} :
    Reached s → WvBufStore.basicmerge sink other s t count = some (s', t') → Reached s'
  | copied {s s' : LinkedStore} {σ : Type} {other : WvBufStore.Sink σ} {t t' : σ} {count : Nat} :
    Reached s → WvBufStore.basicmerge other source t s count = some (t', s') → Reached s'

theorem fresh_newbuffer (s : LinkedStore) : Fresh s.newbuffer := by
  cases s with
  | plain granularity s =>
    intro linked minsize
    refine ⟨_, rfl, ?_⟩
    rw [length_replicate]
    exact WvDynBufStore.le_roundup _ granularity.2
  | dyn s => exact s.fresh_newbuffer

theorem segments_relink (s : LinkedStore) (linked : WvLinkedBufferStore) :
    (s.relink linked).segments = linked := by
  cases s <;> rfl

theorem get_keeps {s s' : LinkedStore} (hs : Inv s.segments) {count first : Nat}
    (h : s.get count = some (s', first)) : Inv s'.segments := by
  obtain ⟨⟨linked, place⟩, hget, heq⟩ := map_eq_some_iff.mp h
  obtain ⟨rfl, -⟩ := Prod.mk.inj heq
  rw [segments_relink]
  exact WvLinkedBufferStore.get_keeps s.fresh_newbuffer hs hget

theorem source_keeps : source.Keeps fun s => Inv s.segments where
  get hs h := by
    obtain ⟨⟨s', first⟩, hget, heq⟩ := map_eq_some_iff.mp h
    obtain ⟨rfl, -⟩ := Prod.mk.inj heq
    exact get_keeps hs hget

theorem sink_keeps : sink.Keeps fun s => Inv s.segments where
  alloc := by
    intro s n s' first hs h
    cases s with
    | plain granularity s =>
      obtain ⟨⟨linked, place⟩, halloc, heq⟩ := map_eq_some_iff.mp h
      obtain ⟨rfl, -⟩ := Prod.mk.inj heq
      exact alloc_keeps hs halloc
    | dyn s =>
      obtain ⟨⟨dyn, place⟩, halloc, heq⟩ := map_eq_some_iff.mp h
      obtain ⟨rfl, -⟩ := Prod.mk.inj heq
      obtain ⟨⟨linked, place'⟩, halloc', heq'⟩ := map_eq_some_iff.mp halloc
      obtain ⟨rfl, -⟩ := Prod.mk.inj heq'
      refine alloc_keeps ?_ halloc'
      split
      · rename_i hmore
        have hfilled := s.fresh_newbuffer.filled s.toWvLinkedBufferStore (Nat.zero_lt_of_lt hmore)
        exact (appendsubbuffer_spec hs hfilled.valid).1
      · exact hs
  unalloc := by
    intro s n s' hs h
    obtain ⟨linked, hunalloc, rfl⟩ := map_eq_some_iff.mp h
    rw [segments_relink]
    exact unalloc_keeps hs hunalloc
  store := by
    intro s first bytes hs
    show Inv (s.relink _).segments
    rw [segments_relink]
    exact store_keeps hs first bytes

theorem stealLoop_keeps {list : List WvCircularBufStore} {s instore : WvLinkedBufferStore}
    {count : Nat} (hs : Inv s) (ht : Inv instore) (hlist : instore.list = list) :
    Inv (stealLoop s instore count list).1 ∧ Inv (stealLoop s instore count list).2.1 := by
  induction list generalizing s instore count with
  | nil => exact ⟨hs, ht⟩
  | cons buf rest ih =>
    have hvalids : ∀ b ∈ buf :: rest, b.Valid := fun b hb => ht.valid b (hlist ▸ hb)
    obtain ⟨hbuf, hrest⟩ := forall_mem_cons.mp hvalids
    have hs' := (appendsubbuffer_spec hs hbuf).1
    have ht' :
        Inv { list := rest, totalused := instore.totalused - buf.used, maxungettable := 0 } := by
      refine ⟨hrest, ?_, fun _ => rfl⟩
      have hlen : buf.view.content.length = buf.used := hbuf.length_content
      have htotal := ht.total
      rw [content, hlist, contents_cons, length_append] at htotal
      show instore.totalused - buf.used = (contents rest).length
      omega
    rw [stealLoop]
    split
    · exact ⟨hs, ht⟩
    · dsimp only
      split
      · exact ⟨hs', ht'⟩
      · exact ih hs' ht' rfl

theorem merge_keeps {s s' t t' : LinkedStore} (hs : Inv s.segments) (ht : Inv t.segments)
    {count : Nat} (h : s.merge t count = some (s', t')) : Inv s'.segments ∧ Inv t'.segments := by
  rw [merge] at h
  split at h
  · obtain ⟨rfl, rfl⟩ := Prod.mk.inj (some.inj h)
    exact ⟨hs, ht⟩
  · refine basicmerge_keeps sink_keeps source_keeps ?_ ?_ h
    · rw [segments_relink]
      exact (stealLoop_keeps hs ht rfl).1
    · rw [segments_relink]
      exact (stealLoop_keeps hs ht rfl).2

theorem Reached.inv {s : LinkedStore} (h : Reached s) : Inv s.segments := by
  have hany : ∀ {τ : Type} {other : Source τ}, other.Keeps fun _ => True :=
    ⟨fun _ _ => trivial⟩
  have hany' : ∀ {σ : Type} {other : Sink σ}, other.Keeps fun _ => True :=
    ⟨fun _ _ => trivial, fun _ _ => trivial, fun _ _ _ => trivial⟩
  induction h with
  | plain granularity | dyn granularity minalloc maxalloc pos le => exact (zap_spec {}).1
  | get _ hget ih => exact get_keeps ih hget
  | put _ hput ih => exact put_keeps sink_keeps ih hput
  | merge _ _ hmerge ihs iht => exact (merge_keeps ihs iht hmerge).1
  | merged _ _ hmerge ihs iht => exact (merge_keeps ihs iht hmerge).2
  | copy _ hmerge ih => exact (basicmerge_keeps sink_keeps hany ih trivial hmerge).1
  | copied _ hmerge ih => exact (basicmerge_keeps hany' source_keeps trivial ih hmerge).2

/-- In every store that is reached, whatever can be peeked at is shown exactly if it is sound. -/
theorem peeks_iff {s : LinkedStore} (hs : Reached s) {offset : Int} {count : Nat}
    (hoffset : -(s.segments.ungettable : Int) ≤ offset)
    (hcount : count ≤ s.segments.optpeekable offset ∨ count ≤ s.segments.peekable offset) :
    s.segments.Peeks s.newbuffer offset count ↔ s.segments.Sound offset count :=
  peeks_iff_sound s.fresh_newbuffer hs.inv hoffset hcount

def ofSegments (list : List WvCircularBufStore) (totalused : Nat) : LinkedStore :=
  .dyn ⟨⟨list, totalused, 0⟩, 1, 8, 8, Nat.one_pos, le_refl 8⟩

/-- Three bytes, and behind them a segment with three bytes that came from another store. -/
def merged : LinkedStore :=
  ofSegments [⟨[1, 2, 3, 0, 0, 0, 0, 0], 0, 3, 3⟩, ⟨[4, 5, 6, 0, 0, 0, 0, 0], 0, 3, 3⟩] 6

theorem reached_merged : Reached merged := by
  have hnew : Reached (ofSegments [] 0) := Reached.dyn 1 8 8 Nat.one_pos (le_refl 8)
  have hone : (ofSegments [] 0).put [1, 2, 3] =
      some (ofSegments [⟨[1, 2, 3, 0, 0, 0, 0, 0], 0, 3, 3⟩] 3) := by decide +kernel
  have htwo : (ofSegments [] 0).put [4, 5, 6] =
      some (ofSegments [⟨[4, 5, 6, 0, 0, 0, 0, 0], 0, 3, 3⟩] 3) := by decide +kernel
  have hmerge : (ofSegments [⟨[1, 2, 3, 0, 0, 0, 0, 0], 0, 3, 3⟩] 3).merge
      (ofSegments [⟨[4, 5, 6, 0, 0, 0, 0, 0], 0, 3, 3⟩] 3) 3 =
        some (merged, ofSegments [] 0) := by decide +kernel
  exact (hnew.put hone).merge (hnew.put htwo) hmerge

/-- The second segment is shown. -/
theorem peeks_iff_merged : merged.segments.Peeks merged.newbuffer 3 3 :=
  (peeks_iff reached_merged (by decide) (Or.inl (by decide))).mpr (Or.inl (by decide))

/-- From the last byte of the first segment on, what is shown of the second one is not there. -/
theorem peeks_iff_fails : Reached merged ∧ -(merged.segments.ungettable : Int) ≤ 2 ∧
    3 ≤ merged.segments.peekable 2 ∧ ¬ merged.segments.Peeks merged.newbuffer 2 3 := by
  refine ⟨reached_merged, by decide, by decide, ?_⟩
  rintro ⟨s', i, first, hpeek, hread, -⟩
  have hcall : merged.segments.mutablepeek merged.newbuffer 2 3 = some (merged.segments, 0, 2) := by
    decide +kernel
  rw [hcall] at hpeek
  obtain ⟨rfl, h⟩ := Prod.mk.inj (Option.some.inj hpeek)
  obtain ⟨rfl, rfl⟩ := Prod.mk.inj h
  exact absurd hread (by decide +kernel)

end LinkedStore

end WvStreams
