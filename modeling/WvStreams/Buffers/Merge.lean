import WvStreams.Buffers.Kinds

/-!
# Merging buffers

`merge` takes whole segments as long as there are enough bytes left to be moved, and copies the
others. Where both stores have segments, the room for those is no longer behind the content: it is
behind the last segment that was taken. A `WvDynBufStore` makes more of it, a
`WvLinkedBufferStore` has to do with it (`merge_moves_iff`).
-/

namespace WvStreams

open Lib Lib.Ring List LinkedStore

namespace WvLinkedBufferStore

/-- The first segments that are taken whole. -/
def taken (count : Nat) : List WvCircularBufStore → List WvCircularBufStore
  | [] => []
  | buf :: rest =>
    if count = 0 ∨ buf.used > count then [] else buf :: taken (count - buf.used) rest

theorem taken_zero (list : List WvCircularBufStore) : taken 0 list = [] := by
  cases list with
  | nil => rfl
  | cons buf rest => exact if_pos (.inl rfl)

theorem stealLoop_spec {list : List WvCircularBufStore} {s instore : WvLinkedBufferStore}
    {count : Nat} (hs : Inv s) (ht : Inv instore) (hlist : instore.list = list) (hpos : 0 < count) :
    ∃ s' instore' rest, stealLoop s instore count list = (s', instore', rest) ∧
      Inv s' ∧ Inv instore' ∧ s'.list = s.list ++ taken count list ∧
      list = taken count list ++ instore'.list ∧
      (contents (taken count list)).length + rest = count ∧ s'.history = s.history ∧
      (taken count list = [] ∧ instore' = instore ∨ instore'.history = []) := by
  induction list generalizing s instore count with
  | nil =>
    exact ⟨s, instore, count, rfl, hs, ht, (append_nil _).symm, hlist.symm, Nat.zero_add _,
      rfl, .inl ⟨rfl, rfl⟩⟩
  | cons buf rest ih =>
    have hvalids : ∀ b ∈ buf :: rest, b.Valid := fun b hb => ht.valid b (hlist ▸ hb)
    obtain ⟨hbuf, hrest⟩ := forall_mem_cons.mp hvalids
    have hlen : buf.view.content.length = buf.used := hbuf.length_content
    rw [stealLoop, taken]
    by_cases hmore : buf.used > count
    · rw [if_pos hmore, if_pos (.inr hmore)]
      exact ⟨s, instore, count, rfl, hs, ht, (append_nil _).symm, hlist.symm, Nat.zero_add _,
        rfl, .inl ⟨rfl, rfl⟩⟩
    · rw [if_neg hmore, if_neg (not_or.mpr ⟨hpos.ne', hmore⟩)]
      obtain ⟨hs', -, hhistory⟩ := appendsubbuffer_spec hs hbuf
      have ht' :
          Inv { list := rest, totalused := instore.totalused - buf.used, maxungettable := 0 } := by
        refine ⟨hrest, ?_, fun _ => rfl⟩
        have htotal := ht.total
        rw [content, hlist, contents_cons, length_append] at htotal
        show instore.totalused - buf.used = (contents rest).length
        omega
      have hforgot : history
          { list := rest, totalused := instore.totalused - buf.used, maxungettable := 0 } = [] := by
        rw [history]
        cases rest with
        | nil => rfl
        | cons first rest => exact drop_length
      by_cases hdone : count - buf.used = 0
      · rw [if_pos hdone, hdone, taken_zero]
        refine ⟨_, _, 0, rfl, hs', ht', rfl, rfl, ?_, hhistory, .inr hforgot⟩
        rw [contents_cons, contents_nil, append_nil]
        omega
      · rw [if_neg hdone]
        have hleft : 0 < count - buf.used := Nat.pos_of_ne_zero hdone
        obtain ⟨s', instore', left, hloop, hinv, hinv', hall, hsplit, hcount, hkept, hsource⟩ :=
          ih hs' ht' rfl hleft
        refine ⟨s', instore', left, hloop, hinv, hinv', ?_, ?_, ?_, hkept.trans hhistory, ?_⟩
        · rw [hall]
          exact append_assoc _ _ _
        · rw [cons_append, ← hsplit]
        · rw [contents_cons, length_append]
          omega
        · rcases hsource with ⟨-, rfl⟩ | hnil
          · exact .inr hforgot
          · exact .inr hnil

end WvLinkedBufferStore

namespace LinkedStore

open WvLinkedBufferStore

def Fits (s : LinkedStore) (first n : Nat) : Prop :=
  ∀ buf, s.segments.list.getLast? = some buf → first + n ≤ buf.xsize

theorem plain_bounded : sink.Bounded free
    (fun s => (∃ granularity linked, s = .plain granularity linked) ∧ Inv s.segments) Fits where
  alloc := by
    rintro _ n s' first ⟨⟨granularity, s, rfl⟩, hs⟩ h
    obtain ⟨⟨linked, place⟩, halloc, heq⟩ := Option.map_eq_some_iff.mp h
    cases heq
    have hinv : Inv linked := WvLinkedBufferStore.alloc_keeps hs halloc
    rw [WvLinkedBufferStore.alloc] at halloc
    split at halloc
    · rename_i hzero
      cases halloc
      subst hzero
      refine ⟨⟨⟨granularity, s, rfl⟩, hs⟩, rfl, fun buf hlast => ?_⟩
      exact Nat.zero_le _
    · rename_i hne
      obtain ⟨buf, hlast, halloc⟩ := Option.bind_eq_some_iff.mp halloc
      obtain ⟨⟨buf', place'⟩, halloc, heq⟩ := Option.map_eq_some_iff.mp halloc
      cases heq
      have hbuf := hs.valid buf (mem_of_getLast? hlast)
      have hfree : n ≤ buf.free := by
        by_contra hmore
        rw [WvCircularBufStore.free] at hmore
        rw [WvCircularBufStore.alloc, if_neg hmore] at halloc
        cases halloc
      obtain ⟨hroom, hsize⟩ :=
        WvCircularBufStore.alloc_room hbuf (Nat.pos_of_ne_zero hne) hfree halloc
      obtain ⟨-, hused⟩ := WvCircularBufStore.alloc_valid hbuf halloc
      refine ⟨⟨⟨granularity, _, rfl⟩, hinv⟩, ?_, fun last hlast' => ?_⟩
      · show ((s.list.dropLast ++ [buf']).getLast?.map WvCircularBufStore.free).getD 0 + n =
          (s.list.getLast?.map WvCircularBufStore.free).getD 0
        rw [getLast?_concat, hlast]
        show buf'.xsize - buf'.totalused + n = buf.xsize - buf.totalused
        rw [WvCircularBufStore.free] at hfree
        omega
      · have hsame : buf' = last := by
          rw [segments, getLast?_concat] at hlast'
          exact Option.some.inj hlast'
        rw [← hsame]
        exact hroom
  store := by
    rintro _ first n bytes ⟨⟨granularity, s, rfl⟩, hs⟩ hfits hbytes
    have hinv : Inv (s.store first bytes) := store_keeps hs first bytes
    have hplain : sink.store (.plain granularity s) first bytes =
        .plain granularity (s.store first bytes) := rfl
    rw [hplain]
    refine ⟨⟨⟨granularity, _, rfl⟩, hinv⟩, ?_⟩
    cases hlast : s.list.getLast? with
    | none =>
      have hsame : s.store first bytes = s := by rw [WvLinkedBufferStore.store, hlast]
      rw [hsame]
      refine ⟨rfl, fun buf hbuf => ?_⟩
      rw [segments, hlast] at hbuf
      cases hbuf
    | some buf =>
      have hroom : first + n ≤ buf.xsize := hfits buf hlast
      obtain ⟨front, hlist⟩ := getLast?_eq_some_iff.mp hlast
      have hsize : (WvCircularBufStore.sink.store buf first bytes).xsize = buf.xsize :=
        length_blit (hroom.trans' (Nat.add_le_add_left hbytes first))
      rw [store_concat hlist]
      refine ⟨?_, fun last hlast' => ?_⟩
      · show ((front ++ [_]).getLast?.map WvCircularBufStore.free).getD 0 =
          (s.list.getLast?.map WvCircularBufStore.free).getD 0
        rw [getLast?_concat, hlast]
        show _ - buf.totalused = buf.xsize - buf.totalused
        rw [hsize]
      · have hsame : WvCircularBufStore.sink.store buf first bytes = last := by
          rw [segments, getLast?_concat] at hlast'
          exact Option.some.inj hlast'
        rw [← hsame, hsize]
        omega

/-- What is copied behind the segments that are taken has room in the last of them. -/
def Room : LinkedStore → LinkedStore → Nat → Prop
  | .plain _ _, t, count => ∀ buf, (taken count t.segments.list).getLast? = some buf →
    count ≤ ((taken count t.segments.list).map WvCircularBufStore.used).sum + buf.free
  | .dyn _, _, _ => True

theorem merge_taken {s t : LinkedStore} (hs : Inv s.segments) (ht : Inv t.segments) {count : Nat}
    (hpos : 0 < count) : ∃ s₁ t₁ rest, s.merge t count =
      WvBufStore.basicmerge sink source (s.relink s₁) (t.relink t₁) rest ∧
    Inv s₁ ∧ Inv t₁ ∧ s₁.list = s.segments.list ++ taken count t.segments.list ∧
    t.segments.list = taken count t.segments.list ++ t₁.list ∧
    (contents (taken count t.segments.list)).length + rest = count ∧
    s₁.history = s.segments.history ∧
    t₁.history ++ t₁.content <:+ t.segments.history ++ t.segments.content := by
  obtain ⟨s₁, t₁, rest, hloop, hs₁, ht₁, hall, hsplit, hcount, hhistory, hsource⟩ :=
    stealLoop_spec hs ht rfl hpos
  refine ⟨s₁, t₁, rest, ?_, hs₁, ht₁, hall, hsplit, hcount, hhistory, ?_⟩
  · rw [merge, if_neg hpos.ne']
    rw [hloop]
  · rcases hsource with ⟨-, rfl⟩ | hnil
    · exact suffix_refl _
    · have hcontent : t.segments.content = contents (taken count t.segments.list) ++ t₁.content := by
        rw [content, content, ← contents_append, ← hsplit]
      rw [hnil, hcontent, nil_append]
      exact (suffix_append _ _).trans (suffix_append _ _)

theorem room_iff {s t : LinkedStore} (ht : Inv t.segments) {s₁ : WvLinkedBufferStore}
    {count rest : Nat} (hall : s₁.list = s.segments.list ++ taken count t.segments.list)
    (hcount : (contents (taken count t.segments.list)).length + rest = count)
    (hsplit : taken count t.segments.list <+: t.segments.list) (hfree : count ≤ s.free) :
    Room s t count ↔ rest ≤ (s.relink s₁).free := by
  cases s with
  | dyn s => exact iff_of_true trivial ((Nat.le_of_add_left_le hcount.le).trans hfree)
  | plain granularity s =>
    have hused : ((taken count t.segments.list).map WvCircularBufStore.used).sum + rest = count := by
      rw [← length_contents fun buf hbuf => ht.valid buf (hsplit.subset hbuf)]
      exact hcount
    show (∀ buf, (taken count t.segments.list).getLast? = some buf → _) ↔
      rest ≤ (s₁.list.getLast?.map WvCircularBufStore.free).getD 0
    rw [hall]
    cases hlast : (taken count t.segments.list).getLast? with
    | none =>
      -- nothing is taken, and the room is that of the store
      rw [getLast?_eq_none_iff.mp hlast, append_nil]
      have hroom : count ≤ (s.list.getLast?.map WvCircularBufStore.free).getD 0 := hfree
      refine iff_of_true nofun ?_
      exact (Nat.le_of_add_left_le hused.le).trans hroom
    | some buf =>
      rw [getLast?_append, hlast]
      show (∀ buf', some buf = some buf' → _) ↔ rest ≤ buf.free
      constructor
      · intro h
        have hroom := h buf rfl
        omega
      · intro h buf' hbuf'
        obtain rfl := Option.some.inj hbuf'
        omega

end LinkedStore

namespace WvBufStore.Kind

open LinkedStore (Room)

open WvLinkedBufferStore (contents contents_append taken taken_zero)

variable {k l : Kind}

def readOnlyMerge {σ τ : Type} (s : σ) (t : τ) (count : Nat) : Option (σ × τ) :=
  if count = 0 then some (s, t) else none

def merge : (k l : Kind) → k.Store → l.Store → Nat → Option (k.Store × l.Store)
  | inPlace, l => basicmerge WvInPlaceBufStore.sink l.reader.toSource
  | constInPlace, _ => readOnlyMerge
  | circular, l => basicmerge WvCircularBufStore.sink l.reader.toSource
  | linked, linked => LinkedStore.merge
  | linked, l => basicmerge sink l.reader.toSource
  | null, _ => readOnlyMerge

/-- Bytes have moved from `t` to `s`, and of what could be given back before only some is lost. -/
structure Moved (s : k.Store) (t : l.Store) (count : Nat) (s' : k.Store) (t' : l.Store) : Prop where
  valid : Valid s' ∧ Valid t'
  content : (view s').content = (view s).content ++ (view t).content.take count
  history : (view s').history = (view s).history ∨ (view s').history = []
  left : (view t').content = (view t).content.drop count
  read : (view t').history ++ (view t').content <:+ (view t).history ++ (view t).content

theorem moved_zero {s : k.Store} {t : l.Store} (hs : Valid s) (ht : Valid t) : Moved s t 0 s t where
  valid := ⟨hs, ht⟩
  content := (append_nil _).symm
  history := .inl rfl
  left := rfl
  read := suffix_refl _

theorem basicmerge_moved {s : k.Store} {t : l.Store} (hs : Valid s) (ht : Valid t) {count : Nat}
    (hused : count ≤ (view t).content.length) (hfree : count ≤ free s) :
    ∃ s' t', basicmerge k.writer.toSink l.reader.toSource s t count = some (s', t') ∧
      Moved s t count s' t' := by
  have hs' : k.writer.Valid s := by
    rw [k.writer_valid]
    exact hs
  obtain ⟨s', t', hmerge, hvalid, hvalid', hcontent, hhistory, hleft, hread⟩ :=
    basicmerge_view k.writer_lawful l.reader_lawful hs' ht hused hfree
  rw [k.writer_valid] at hvalid
  rw [k.writer_view] at hcontent hhistory
  exact ⟨s', t', hmerge, ⟨hvalid, hvalid'⟩, hcontent, hhistory, hleft, hread⟩

theorem Moved.after {s s₁ s' : k.Store} {t t₁ t' : l.Store} {front : Str} {rest : Nat}
    (h : Moved s₁ t₁ rest s' t') (hcontent : (view s₁).content = (view s).content ++ front)
    (hhistory : (view s₁).history = (view s).history)
    (hsource : (view t).content = front ++ (view t₁).content)
    (hread : (view t₁).history ++ (view t₁).content <:+ (view t).history ++ (view t).content) :
    Moved s t (front.length + rest) s' t' where
  valid := h.valid
  content := by
    rw [h.content, hcontent, hsource, take_length_add_append, append_assoc]
  history := h.history.imp_left fun hkept => hkept.trans hhistory
  left := by
    rw [h.left, hsource, drop_length_add_append]
  read := h.read.trans hread

theorem linked_moved_iff {s t : LinkedStore} (hs : Valid (k := linked) s) (ht : Valid (k := linked) t)
    {count : Nat} (hused : count ≤ (view (k := linked) t).content.length) (hfree : count ≤ s.free) :
    (∃ s' t', s.merge t count = some (s', t') ∧ Moved (k := linked) (l := linked) s t count s' t') ↔
      Room s t count := by
  rcases Nat.eq_zero_or_pos count with rfl | hpos
  · have hroom : Room s t 0 := by
      cases s with
      | dyn s => trivial
      | plain granularity s =>
        intro buf hlast
        rw [taken_zero] at hlast
        cases hlast
    exact iff_of_true ⟨s, t, if_pos rfl, moved_zero hs ht⟩ hroom
  · obtain ⟨s₁, t₁, rest, hmerge, hs₁, ht₁, hall, hsplit, hcount, hhistory, hread⟩ :=
      merge_taken hs ht hpos
    rw [hmerge, room_iff ht hall hcount ⟨_, hsplit.symm⟩ hfree]
    constructor
    · rintro ⟨s', t', hbasic, -⟩
      cases s with
      | plain granularity s =>
        exact basicmerge_bounded plain_bounded ⟨⟨granularity, s₁, rfl⟩, hs₁⟩ hbasic
      | dyn s => exact (Nat.le_of_add_left_le hcount.le).trans hfree
    · intro hroom
      have hdest : view (k := linked) (s.relink s₁) = s₁.view :=
        congrArg WvLinkedBufferStore.view (segments_relink s s₁)
      have hsource : view (k := linked) (t.relink t₁) = t₁.view :=
        congrArg WvLinkedBufferStore.view (segments_relink t t₁)
      have hmore : s₁.content = s.segments.content ++ contents (taken count t.segments.list) := by
        rw [WvLinkedBufferStore.content, hall, contents_append]
        rfl
      have hless : t.segments.content = contents (taken count t.segments.list) ++ t₁.content := by
        rw [WvLinkedBufferStore.content, WvLinkedBufferStore.content, ← contents_append, ← hsplit]
      have hlen : rest ≤ t₁.content.length := by
        have hall := congrArg length hless
        rw [length_append] at hall
        have hused' : count ≤ t.segments.content.length := hused
        omega
      obtain ⟨s', t', hbasic, hmoved⟩ := basicmerge_moved (k := linked) (l := linked)
        (s := s.relink s₁) (t := t.relink t₁)
        (by rw [← segments_relink s s₁] at hs₁; exact hs₁)
        (by rw [← segments_relink t t₁] at ht₁; exact ht₁)
        (hlen.trans_eq (congrArg (fun q => q.content.length) hsource.symm)) hroom
      refine ⟨s', t', hbasic, ?_⟩
      rw [← hcount]
      apply hmoved.after
      · rw [hdest]
        exact hmore
      · rw [hdest]
        exact hhistory
      · rw [hsource]
        exact hless
      · rw [hsource]
        exact hread

/-- The room for what is copied, where both stores have segments. -/
def HasRoom : (k l : Kind) → k.Store → l.Store → Nat → Prop
  | linked, linked => Room
  | _, _ => fun _ _ _ => True

/-- As many bytes move as are asked for, and nothing else does, if and only if there is room. -/
theorem merge_moves_iff (k l : Kind) {s : k.Store} {t : l.Store} (hs : Valid s) (ht : Valid t)
    {count : Nat} (hused : count ≤ (view t).content.length) (hfree : count ≤ free s) :
    (∃ s' t', merge k l s t count = some (s', t') ∧ Moved s t count s' t') ↔
      HasRoom k l s t count := by
  have hnone (hzero : free s = 0) :
      ∃ s' t', readOnlyMerge s t count = some (s', t') ∧ Moved s t count s' t' := by
    obtain rfl := Nat.le_zero.mp (hfree.trans_eq hzero)
    exact ⟨s, t, rfl, moved_zero hs ht⟩
  cases k with
  | inPlace => exact iff_of_true (basicmerge_moved hs ht hused hfree) trivial
  | constInPlace => exact iff_of_true (hnone rfl) trivial
  | circular => exact iff_of_true (basicmerge_moved hs ht hused hfree) trivial
  | null => exact iff_of_true (hnone rfl) trivial
  | linked =>
    cases l with
    | linked => exact linked_moved_iff hs ht hused hfree
    | _ => exact iff_of_true (basicmerge_moved hs ht hused hfree) trivial

/-- One segment of three bytes is taken, and a byte of the next one is copied. -/
theorem merge_moves_segments :
    (∃ s' t', merge linked linked merged merged 4 = some (s', t') ∧
      Moved (k := linked) (l := linked) merged merged 4 s' t') ↔
      HasRoom linked linked merged merged 4 :=
  merge_moves_iff linked linked reached_merged.inv reached_merged.inv
    (by decide +kernel) (by decide +kernel)

end WvBufStore.Kind

namespace LinkedStore

/-- A `WvLinkedBufferStore` with room for seven bytes. -/
def roomy : LinkedStore := .plain ⟨1, Nat.one_pos⟩ ⟨[⟨[9, 0, 0, 0, 0, 0, 0, 0], 0, 1, 1⟩], 1, 0⟩

def full : LinkedStore :=
  .dyn ⟨⟨[⟨[1, 2, 3, 4], 0, 4, 4⟩, ⟨[5, 6], 0, 2, 2⟩], 6, 0⟩, 1, 2, 2, Nat.one_pos, le_refl 2⟩

theorem reached_roomy : Reached roomy := by
  have hnew : Reached (ofSegments [] 0) := Reached.dyn 1 8 8 Nat.one_pos (le_refl 8)
  have hput : (ofSegments [] 0).put [9] =
      some (ofSegments [⟨[9, 0, 0, 0, 0, 0, 0, 0], 0, 1, 1⟩] 1) := by decide +kernel
  have hmerge : (plain ⟨1, Nat.one_pos⟩ {}).merge
      (ofSegments [⟨[9, 0, 0, 0, 0, 0, 0, 0], 0, 1, 1⟩] 1) 1 =
        some (roomy, ofSegments [] 0) := by decide +kernel
  exact (Reached.plain ⟨1, Nat.one_pos⟩).merge (hnew.put hput) hmerge

theorem reached_full : Reached full := by
  have hnew : Reached (.dyn (.new 1 2 2 Nat.one_pos (le_refl 2))) :=
    Reached.dyn 1 2 2 Nat.one_pos (le_refl 2)
  have hone : (dyn (.new 1 2 2 Nat.one_pos (le_refl 2))).put [1, 2, 3, 4] = some
      (.dyn ⟨⟨[⟨[1, 2, 3, 4], 0, 4, 4⟩], 4, 0⟩, 1, 2, 2, Nat.one_pos, le_refl 2⟩) := by
    decide +kernel
  have htwo : (dyn ⟨⟨[⟨[1, 2, 3, 4], 0, 4, 4⟩], 4, 0⟩, 1, 2, 2, Nat.one_pos,
      le_refl 2⟩).put [5, 6] = some full := by decide +kernel
  exact (hnew.put hone).put htwo

open WvBufStore.Kind in
/-- A segment of four bytes is taken, and there is no room behind it for the fifth. -/
theorem merge_short : ¬ ∀ s t : LinkedStore, Reached s → Reached t → ∀ count,
    count ≤ (view (k := linked) t).content.length → count ≤ s.free →
      ∃ s' t', s.merge t count = some (s', t') ∧
        Moved (k := linked) (l := linked) s t count s' t' := by
  intro h
  obtain ⟨s', t', hmerge, -⟩ :=
    h roomy full reached_roomy reached_full 5 (by decide +kernel) (by decide)
  have hnone : roomy.merge full 5 = none := by decide +kernel
  rw [hnone] at hmerge
  cases hmerge

end LinkedStore

end WvStreams
