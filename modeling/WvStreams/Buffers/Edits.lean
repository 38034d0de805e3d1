import WvStreams.Buffers.Bytes

/-!
# Bytes of the content that are changed

A store stays valid, and keeps its room, when bytes of its content are changed where they are or
when the last ones are given back.
-/

namespace WvStreams

open Lib Lib.Ring Option List LinkedStore

namespace WvBufStore

theorem put_induct {σ : Type} {sink : Sink σ} {P : σ → Prop}
    (halloc : ∀ {s s' n first}, sink.alloc s n = some (s', first) → P s → P s')
    (hstore : ∀ {s} first bytes, P s → P (sink.store s first bytes)) {s s' : σ} {data : Str}
    (h : put sink s data = some s') (hs : P s) : P s' := by
  induction hlength : data.length using Nat.strong_induction_on generalizing s data with
  | _ length ih =>
    subst hlength
    rw [put] at h
    by_cases hnil : data = []
    · rw [if_pos hnil] at h
      exact some.inj h ▸ hs
    · have hpos : 0 < data.length := length_pos_iff.mpr hnil
      rw [if_neg hnil] at h
      by_cases hamount : 0 < min (sink.optallocable s) data.length
      · rw [dif_pos hamount] at h
        obtain ⟨⟨s₁, first⟩, hcall, hmore⟩ := bind_eq_some_iff.mp h
        exact ih _ (by rw [length_drop]; omega) hmore (hstore _ _ (halloc hcall hs)) rfl
      · rw [dif_neg hamount] at h
        cases h

end WvBufStore

namespace WvCircularBufStore

theorem mutablepeek_xsize {s s' : WvCircularBufStore} (hs : Sized s) {offset : Int}
    {count first : Nat} (h : s.mutablepeek offset count = some (s', first)) :
    s'.xsize = s.xsize := by
  have hkept : ∀ {s' : WvCircularBufStore} {first : Nat},
      s.ensurecontiguous offset count true = some (s', first) → s'.xsize = s.xsize := by
    intro s' first h
    rw [ensurecontiguous, if_neg hs.pos.ne'] at h
    dsimp only at h
    split at h
    · obtain ⟨rfl, -⟩ := Prod.mk.inj (some.inj h)
      exact (compact_window (Nat.mod_lt _ hs.pos).le hs.init_le).1
    · obtain ⟨rfl, -⟩ := Prod.mk.inj (some.inj h)
      rfl
  rw [mutablepeek] at h
  by_cases hzero : count = 0
  · rw [if_pos hzero] at h
    obtain ⟨rfl, -⟩ := Prod.mk.inj (some.inj h)
    rfl
  · rw [if_neg hzero] at h
    by_cases hassert : (if offset ≤ 0 then (-offset).toNat ≤ s.totalinit - s.totalused
        else offset.toNat < s.totalused)
    · rw [if_pos hassert] at h
      exact hkept h
    · rw [if_neg hassert] at h
      cases h

theorem overwrite_valid {s : WvCircularBufStore} (hs : Valid s) (hused : 0 < s.totalused)
    {offset : Int} {bytes : Str} (hcount : bytes.length ≤ s.peekable offset) :
    ∃ s' first, s.mutablepeek offset bytes.length = some (s', first) ∧
      Valid { s' with data := blit s'.data first bytes } ∧
      ({ s' with data := blit s'.data first bytes } : WvCircularBufStore).free = s.free ∧
      s'.totalused = s.totalused ∧
      ({ s' with data := blit s'.data first bytes } : WvCircularBufStore).view =
        s.view.write offset bytes := by
  obtain ⟨s', first, hpeek, -, -, -, hwrite, hlen, hhead⟩ := mutablepeek_spec hs.toSized hcount
  obtain ⟨hsized, hsame⟩ := mutablepeek_sized hs.toSized hpeek
  have hsize : (blit s'.data first bytes).length = s.xsize :=
    hlen.trans (mutablepeek_xsize hs.toSized hpeek)
  have hlt : s'.head < s'.xsize := hhead hs.head_lt fun h => hused.ne' h.1
  refine ⟨s', first, hpeek, ⟨⟨?_, hsized.used_le, ?_⟩, ?_⟩, ?_, hsame, hwrite⟩
  · exact hsized.pos.trans_eq hlen.symm
  · exact hsized.init_le.trans_eq hlen.symm
  · exact hlt.trans_eq hlen.symm
  · show (blit s'.data first bytes).length - s'.totalused = s.xsize - s.totalused
    rw [hsize, hsame]

end WvCircularBufStore

namespace WvLinkedBufferStore

theorem Inv.replace {s : WvLinkedBufferStore} (hs : Inv s) {front rest : List WvCircularBufStore}
    {buf buf' : WvCircularBufStore} (hlist : s.list = front ++ buf :: rest) (hbuf' : buf'.Valid)
    (hused : buf'.totalused = buf.totalused) (hfree : buf'.free = buf.free) :
    Inv { s with list := front ++ buf' :: rest } ∧
      free { s with list := front ++ buf' :: rest } = s.free := by
  have hvalid := hs.valid
  rw [hlist, forall_mem_append, forall_mem_cons] at hvalid
  have hloose := hs.loose.replace hlist hbuf'.toSized hused
  refine ⟨⟨?_, hloose.length_content.symm, fun h => ?_⟩, ?_⟩
  · rw [forall_mem_append, forall_mem_cons]
    exact ⟨hvalid.1, hbuf', hvalid.2.2⟩
  · exact absurd h (by simp)
  · rw [free, free, hlist]
    cases rest with
    | nil => simp [hfree]
    | cons next rest => simp [getLast?_cons_cons, getLast?_append]

end WvLinkedBufferStore

namespace WvBufStore.Kind

variable {k : Kind}

/-- There is room for some more bytes, which there always is in a `WvDynBuf`. -/
def Roomy : (k : Kind) → k.Store → Nat → Prop
  | .linked, .dyn _, _ => True
  | k, s, n => n ≤ free (k := k) s

variable {s : k.Store}

theorem Roomy.mono {s' : k.Store} {n : Nat} (hk : k ≠ .linked) (h : Roomy k s n)
    (hfree : free s ≤ free s') : Roomy k s' n := by
  cases k with
  | linked => exact absurd rfl hk
  | inPlace | constInPlace | circular | null => exact Nat.le_trans h hfree

theorem roomy_relink {s : LinkedStore} {linked : WvLinkedBufferStore}
    (hfree : linked.free = s.segments.free) {n : Nat} (h : Roomy .linked s n) :
    Roomy .linked (s.relink linked) n := by
  cases s with
  | dyn s => trivial
  | plain granularity s => exact Nat.le_trans h hfree.ge

open WvLinkedBufferStore

theorem overwrite_valid (hs : Valid s) (hw : k.editor.Writable s) {offset : Nat} {bytes : Str}
    (hoffset : offset < (view s).content.length) (hpos : 0 < bytes.length)
    (hcount : bytes.length ≤ k.editor.optpeekable s offset) :
    ∃ s', k.editor.overwrite s offset bytes = some s' ∧ Valid s' ∧
      view s' = (view s).write offset bytes ∧ ∀ n, Roomy k s n → Roomy k s' n := by
  have hview : k.editor.view s = view s := congrFun k.editor_view s
  have hrange : k.editor.InRange s offset := by
    rw [Editor.InRange, hview]
    omega
  obtain ⟨s', hover, -, -, hwrite⟩ := k.editor_lawful.overwrite hs.editor hw hrange hpos hcount
  rw [k.editor_view] at hwrite
  refine ⟨s', hover, ?_⟩
  cases k with
  | constInPlace | null => exact hw.elim
  | inPlace =>
    obtain ⟨first, -, rfl⟩ := map_eq_some_iff.mp hover
    refine ⟨trivial, hwrite, fun n h => Roomy.mono (by simp) h ?_⟩
    exact Nat.sub_le_sub_right (length_le_blit s.data first bytes) s.writeidx
  | circular =>
    have hused : 0 < s.totalused := by
      have hlen := WvCircularBufStore.Sized.length_content (WvCircularBufStore.Valid.toSized hs)
      exact hlen ▸ Nat.zero_lt_of_lt hoffset
    obtain ⟨s'', first, hpeek, hvalid, hfree, -, -⟩ :=
      WvCircularBufStore.overwrite_valid hs hused hcount
    obtain ⟨r, hr, rfl⟩ := map_eq_some_iff.mp hover
    obtain rfl := some.inj (hr.symm.trans hpeek)
    exact ⟨hvalid, hwrite, fun n h => Roomy.mono (by simp) h hfree.ge⟩
  | linked =>
    have hinv : Inv s.segments := hs
    obtain ⟨front, buf, rest, o, hlocated⟩ := located hinv.loose hrange
    have hbuf : buf.Valid := hinv.valid buf (by rw [hlocated.list_eq]; simp)
    have hused : 0 < buf.totalused := by
      have hlt : offset < (s.segments.list.map WvCircularBufStore.used).sum := by
        rw [← hinv.loose.total, hinv.total]
        exact hoffset
      obtain ⟨_, _, _, o', -, hsearch, -⟩ := search_sum hlt
      have ho := (Prod.mk.inj (some.inj (hlocated.search_eq.symm.trans hsearch))).2
      have hhigh := hlocated.high
      rw [hbuf.toSized.length_content] at hhigh
      omega
    have hle : bytes.length ≤ buf.peekable o :=
      hcount.trans_eq (optpeekable_found hlocated.list_eq hlocated.search_eq)
    obtain ⟨buf', first, hpeek, hvalid, hfree, hsame, -⟩ :=
      WvCircularBufStore.overwrite_valid hbuf hused hle
    obtain ⟨r, hr, rfl⟩ := map_eq_some_iff.mp hover
    rw [hlocated.mutablepeek hpos.ne' hle, hpeek] at hr
    obtain rfl := some.inj hr
    obtain ⟨hinv', hfree'⟩ := hinv.replace hlocated.list_eq hvalid hsame hfree
    dsimp only at hwrite ⊢
    rw [storeAt_found rfl] at hwrite ⊢
    refine ⟨?_, hwrite, fun n h => roomy_relink hfree' h⟩
    show Inv (s.relink _).segments
    rwa [segments_relink]

open WvCircularBufStore

theorem unalloc_valid (hs : Valid s) (hw : k.editor.Writable s) {count : Nat}
    (hcount : count ≤ (view s).content.length) :
    ∃ s', k.writer.unalloc s count = some s' ∧ Valid s' ∧
      (view s').content = (view s).content.take ((view s).content.length - count) := by
  cases k with
  | constInPlace | null => exact hw.elim
  | inPlace =>
    have hused : count ≤ s.writeidx - s.readidx := hcount.trans_eq s.length_content
    refine ⟨_, dif_pos hused, trivial, ?_⟩
    show (s.data.take (s.writeidx - count)).drop s.readidx =
      ((s.data.take s.writeidx).drop s.readidx).take (s.view.content.length - count)
    have hread := s.read_le
    rw [s.length_content, WvInPlaceBufStore.used, drop_take, drop_take, take_take]
    congr 1
    omega
  | circular =>
    obtain ⟨s', hunalloc, hview, hvalid⟩ := unalloc_spec hs
      (hcount.trans_eq (Sized.length_content (Valid.toSized hs)))
    exact ⟨s', hunalloc, hvalid, congrArg Queue.content hview⟩
  | linked =>
    have hinv : Inv s.segments := hs
    obtain ⟨linked, hunalloc, hvalid, hcontent, -⟩ :=
      unalloc_spec hinv (hcount.trans_eq hinv.total.symm)
    refine ⟨s.relink linked, ?_, ?_, ?_⟩
    · show (s.segments.unalloc count).map s.relink = _
      rw [hunalloc, map_some]
    · show Inv (s.relink linked).segments
      rwa [segments_relink]
    · show (s.relink linked).segments.content = _
      rw [segments_relink]
      exact hcontent

theorem put_dyn {s s' : LinkedStore} {data : Str} (h : put (k := .linked) s data = some s')
    (hs : ∃ dyn, s = .dyn dyn) : ∃ dyn, s' = .dyn dyn := by
  refine put_induct (P := fun s : LinkedStore => ∃ dyn, s = .dyn dyn) ?_ ?_ h hs
  · rintro s s' n first halloc ⟨dyn, rfl⟩
    obtain ⟨⟨dyn', first'⟩, -, hsame⟩ := map_eq_some_iff.mp halloc
    exact ⟨dyn', (Prod.mk.inj hsame).1.symm⟩
  · rintro s first bytes ⟨dyn, rfl⟩
    exact ⟨_, rfl⟩

theorem put_valid (hs : Valid s) {data : Str} {n : Nat}
    (hdata : data.length ≤ UNLIMITED_FREE_SPACE) (hroom : Roomy k s (data.length + n)) :
    ∃ s', put s data = some s' ∧ Valid s' ∧ Roomy k s' n ∧
      (view s').content = (view s).content ++ data := by
  have hput {m : Nat} (hfree : data.length + m ≤ k.writer.free s) :
      ∃ s', put s data = some s' ∧ Valid s' ∧ m ≤ free s' ∧
        (view s').content = (view s).content ++ data := by
    obtain ⟨s', hcall, hvalid, hcontent, hleft, -⟩ :=
      put_spec (k.writer_lawful.writes (P := fun _ => True) fun _ _ => trivial)
        (show k.writer.Holds _ s (k.writer.view s).content _ from
          ⟨by rwa [k.writer_valid], rfl, hfree, trivial⟩)
    rw [k.writer_valid] at hvalid
    rw [k.writer_view] at hcontent
    exact ⟨s', hcall, hvalid, hleft, hcontent⟩
  cases k with
  | linked =>
    cases s with
    | plain granularity s =>
      obtain ⟨s', hcall, hvalid, hleft, hcontent⟩ := hput hroom
      refine ⟨s', hcall, hvalid, ?_, hcontent⟩
      cases s' with
      | plain => exact hleft
      | dyn => trivial
    | dyn s =>
      obtain ⟨s', hcall, hvalid, -, hcontent⟩ := hput (m := 0) hdata
      obtain ⟨dyn, rfl⟩ := put_dyn hcall ⟨s, rfl⟩
      exact ⟨_, hcall, hvalid, trivial, hcontent⟩
  | inPlace | constInPlace | circular | null => exact hput hroom

end WvBufStore.Kind

end WvStreams
