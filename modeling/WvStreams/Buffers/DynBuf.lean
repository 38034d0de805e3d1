import WvStreams.Buffers.LinkedBuf

/-!
# A linked buffer is a queue

The content of a linked buffer is that of its segments, one after the other. Of what was read,
the first segment holds the last bytes at least as far as `maxungettable` allows them to be
given back (`history`): coalescing moves them along or loses them, and a segment that comes to
the front gives nothing back. So every run follows a queue that never forgets (`refines_fifo`).
-/

namespace WvStreams

open Lib Lib.Ring List Option

namespace WvLinkedBufferStore

def lastBytes (n : Nat) (s : Str) : Str := s.drop (s.length - n)

theorem lastBytes_suffix (n : Nat) (s : Str) : lastBytes n s <:+ s := drop_suffix _ _

@[simp] theorem length_lastBytes (n : Nat) (s : Str) : (lastBytes n s).length = min s.length n := by
  rw [lastBytes, length_drop]
  omega

theorem lastBytes_append (n : Nat) (s t : Str) :
    lastBytes (n + t.length) (s ++ t) = lastBytes n s ++ t := by
  have hlen : (s ++ t).length - (n + t.length) = s.length - n := by
    rw [length_append]
    omega
  rw [lastBytes, hlen, drop_append_of_le_length (Nat.sub_le _ _)]
  rfl

theorem lastBytes_min (n : Nat) (s : Str) : lastBytes (min s.length n) s = lastBytes n s := by
  rw [lastBytes, lastBytes]
  congr 1
  omega

theorem lastBytes_lastBytes (n : Nat) (s : Str) : lastBytes n (lastBytes n s) = lastBytes n s := by
  have hzero : (lastBytes n s).length - n = 0 := by
    rw [length_lastBytes]
    omega
  rw [lastBytes, hzero, drop_zero]

theorem lastBytes_mono (n : Nat) {s t : Str} (h : s <:+ t) : lastBytes n s <:+ lastBytes n t := by
  obtain ⟨front, rfl⟩ := h
  refine suffix_of_suffix_length_le ((lastBytes_suffix n s).trans (suffix_append _ _))
    (lastBytes_suffix n _) ?_
  rw [length_lastBytes, length_lastBytes, length_append]
  omega

variable {count : Nat} {buf : WvCircularBufStore} {s : WvLinkedBufferStore}
  {list rest : List WvCircularBufStore}

theorem drop_lastBytes {n : Nat} {s : Str} (h : count ≤ min s.length n) :
    (lastBytes n s).drop ((lastBytes n s).length - count) = s.drop (s.length - count) := by
  rw [length_lastBytes, lastBytes, drop_drop]
  congr 1
  omega

theorem take_lastBytes {n : Nat} {s : Str} (h : count ≤ min s.length n) :
    (lastBytes n s).take ((lastBytes n s).length - count) =
      lastBytes (n - count) (s.take (s.length - count)) := by
  have htake : s.length - n + (min s.length n - count) = s.length - count := by omega
  have hdrop : min (s.length - count) s.length - (n - count) = s.length - n := by omega
  rw [length_lastBytes, lastBytes, lastBytes, length_take, take_drop, htake, hdrop]

def contents (list : List WvCircularBufStore) : Str := list.flatMap fun buf => buf.view.content

@[simp] theorem contents_nil : contents [] = [] := rfl

@[simp] theorem contents_cons (buf : WvCircularBufStore) (list : List WvCircularBufStore) :
    contents (buf :: list) = buf.view.content ++ contents list := rfl

theorem contents_append (list list' : List WvCircularBufStore) :
    contents (list ++ list') = contents list ++ contents list' := flatMap_append

theorem contents_concat (list : List WvCircularBufStore) (buf : WvCircularBufStore) :
    contents (list ++ [buf]) = contents list ++ buf.view.content := by
  rw [contents_append, contents_cons, contents_nil, append_nil]

theorem length_contents_sized (h : ∀ buf ∈ list, buf.Sized) :
    (contents list).length = (list.map WvCircularBufStore.used).sum := by
  induction list with
  | nil => rfl
  | cons buf list ih =>
    obtain ⟨hbuf, hlist⟩ := forall_mem_cons.mp h
    rw [contents_cons, length_append, map_cons, sum_cons, ih hlist, hbuf.length_content]
    rfl

theorem length_contents (h : ∀ buf ∈ list, buf.Valid) :
    (contents list).length = (list.map WvCircularBufStore.used).sum :=
  length_contents_sized fun buf hbuf => (h buf hbuf).toSized

theorem take_contents (list : List WvCircularBufStore) (h : buf.view.content.length ≤ count) :
    (contents (buf :: list)).take count =
      buf.view.content ++ (contents list).take (count - buf.view.content.length) := by
  rw [contents_cons, take_append, take_of_length_le h]

theorem drop_contents (list : List WvCircularBufStore) (h : buf.view.content.length ≤ count) :
    (contents (buf :: list)).drop count =
      (contents list).drop (count - buf.view.content.length) := by
  rw [contents_cons, drop_append, drop_of_length_le h, nil_append]

def content (s : WvLinkedBufferStore) : Str := contents s.list

/-- The bytes that can be given back. -/
def history (s : WvLinkedBufferStore) : Str :=
  match s.list with
  | [] => []
  | first :: _ => lastBytes s.maxungettable first.view.history

structure Inv (s : WvLinkedBufferStore) : Prop where
  valid : ∀ buf ∈ s.list, buf.Valid
  total : s.totalused = s.content.length
  empty : s.list = [] → s.maxungettable = 0

theorem Inv.ungettable (hs : Inv s) : s.ungettable = s.history.length := by
  rw [WvLinkedBufferStore.ungettable, history]
  cases hlist : s.list with
  | nil => rfl
  | cons first rest =>
    have hvalid := hs.valid first (by rw [hlist]; exact mem_cons_self)
    rw [length_lastBytes, hvalid.length_history]

/-! ## Coalescing -/

/-- New segments are empty, and as large as was asked for. -/
def Fresh (newbuffer : WvLinkedBufferStore → Nat → WvCircularBufStore) : Prop :=
  ∀ s minsize, ∃ data, newbuffer s minsize = ⟨data, 0, 0, 0⟩ ∧ minsize ≤ data.length

variable {newbuffer : WvLinkedBufferStore → Nat → WvCircularBufStore}

theorem Fresh.filled
    (h : Fresh newbuffer) (s : WvLinkedBufferStore) {minsize : Nat} (hpos : 0 < minsize) :
    WvCircularBufStore.Filled [] (newbuffer s minsize) [] minsize := by
  obtain ⟨data, hnew, hsize⟩ := h s minsize
  have hdata : data ≠ [] := ne_nil_of_length_pos (by omega)
  obtain ⟨buf, hbuf, hview, hvalid⟩ := WvCircularBufStore.new_spec (Nat.zero_le data.length) hdata
  rw [WvCircularBufStore.new, if_pos (Nat.zero_le _)] at hbuf
  obtain rfl := some.inj hbuf
  rw [hnew]
  refine ⟨hvalid, ?_, fun _ => ?_, ?_⟩
  · rw [hview]
    rfl
  · rw [hview]
  · show 0 + minsize ≤ data.length
    omega

theorem coalesceLoop_spec {start content : Str} {needed mustskip : Nat} (hpos : 0 < needed)
    (hstart : start <+: content) (hbuf : WvCircularBufStore.Filled start buf content needed)
    (hrest : ∀ b ∈ rest, b.Valid) (henough : needed ≤ (contents rest).length)
    (hskip : mustskip ≤ content.length + needed) :
    ∃ buf' rest', coalesceLoop buf needed mustskip rest = some (buf', rest') ∧ buf'.Valid ∧
      (∀ b ∈ rest', b.Valid) ∧ buf'.view = ⟨(content ++ (contents rest).take needed).take mustskip,
        (content ++ (contents rest).take needed).drop mustskip⟩ ∧
      contents rest' = (contents rest).drop needed := by
  induction rest generalizing buf content needed with
  | nil =>
    rw [contents_nil, length_nil] at henough
    omega
  | cons itbuf rest ih =>
    obtain ⟨hitbuf, hrest⟩ := forall_mem_cons.mp hrest
    have hlen := hitbuf.length_content
    rw [contents_cons, length_append, hlen] at henough
    rw [coalesceLoop]
    by_cases hempty : itbuf.used = 0
    · have hnil : itbuf.view.content = [] := eq_nil_of_length_eq_zero (hlen.trans hempty)
      rw [if_pos hempty, contents_cons, hnil, nil_append]
      exact ih hpos hstart hbuf hrest (by rw [WvCircularBufStore.used] at hempty; omega) hskip
    · rw [if_neg hempty]
      dsimp only
      have hused : itbuf.used = itbuf.view.content.length := hlen.symm
      have hchunk : needed = min itbuf.used needed + (needed - min itbuf.used needed) := by omega
      rw [hchunk] at hbuf
      obtain ⟨buf₁, itbuf₁, hmerge, hfilled, hvalid₁, hcontent₁⟩ :=
        WvCircularBufStore.merge_spec hstart hbuf hitbuf (by omega)
      rw [hmerge, bind_some]
      have htake : (itbuf.view.content.take (min itbuf.used needed)).length =
          min itbuf.used needed := length_take_of_le (by omega)
      have hlen₁ : (content ++ itbuf.view.content.take (min itbuf.used needed)).length =
          content.length + min itbuf.used needed := by rw [length_append, htake]
      by_cases hdone : needed - min itbuf.used needed = 0
      · -- this segment has all that is needed
        have hmin : min itbuf.used needed = needed := by omega
        rw [hmin] at hfilled hlen₁ hcontent₁
        have hne : content ++ itbuf.view.content.take needed ≠ start := by
          intro heq
          have hle := hstart.length_le
          rw [← heq, hlen₁] at hle
          omega
        have hview : buf₁.view = ⟨[], content ++ itbuf.view.content.take needed⟩ := by
          rw [← hfilled.content_eq, ← hfilled.history hne]
        have hskip₁ : mustskip ≤ buf₁.totalused := by
          rw [hfilled.used, hlen₁]
          exact hskip
        obtain ⟨buf₂, first, hget, hview₂, -, hvalid₂⟩ :=
          WvCircularBufStore.get_spec hfilled.valid hskip₁
        have hall : itbuf.view.content.take needed = (contents (itbuf :: rest)).take needed := by
          rw [contents_cons, take_append_of_le_length (by omega)]
        rw [if_pos hdone, hget]
        refine ⟨buf₂, itbuf₁ :: rest, rfl, hvalid₂, forall_mem_cons.mpr ⟨hvalid₁, hrest⟩, ?_, ?_⟩
        · rw [← hall]
          rcases hview₂ with h | h
          · rw [h, hview]
            rfl
          · rw [h, hview]
            rfl
        · rw [contents_cons, hcontent₁, contents_cons, drop_append_of_le_length (by omega)]
      · -- all of this segment, and some of those behind it
        have hle : itbuf.view.content.length ≤ needed := by omega
        have hmin : min itbuf.used needed = itbuf.view.content.length := by omega
        rw [hmin, take_length] at hfilled
        rw [hmin] at hdone ⊢
        rw [if_neg hdone]
        have hskip₁ : mustskip ≤ (content ++ itbuf.view.content).length +
            (needed - itbuf.view.content.length) := by
          rw [length_append]
          omega
        obtain ⟨buf', rest', hloop, hvalid, hvalids, hview, hcontents⟩ :=
          ih (by omega) (hstart.trans (prefix_append _ _)) hfilled hrest (by omega) hskip₁
        refine ⟨buf', rest', hloop, hvalid, hvalids, ?_, ?_⟩
        · rw [hview, take_contents rest hle, ← append_assoc]
        · rw [hcontents, drop_contents rest hle]

theorem Fresh.loop
    (hnew : Fresh newbuffer) (s : WvLinkedBufferStore) {mustskip : Nat} (hpos : 0 < count)
    (hrest : ∀ b ∈ rest, b.Valid) (henough : count + mustskip ≤ (contents rest).length) :
    ∃ buf' rest', coalesceLoop (newbuffer s (count + mustskip)) (count + mustskip) mustskip rest =
        some (buf', rest') ∧ buf'.Valid ∧ (∀ b ∈ rest', b.Valid) ∧
      buf'.view = ⟨(contents rest).take mustskip, ((contents rest).drop mustskip).take count⟩ ∧
      contents rest' = (contents rest).drop (count + mustskip) := by
  have hneeded : 0 < count + mustskip := by omega
  have hskip : mustskip ≤ ([] : Str).length + (count + mustskip) := by
    rw [length_nil]
    omega
  have hfilled := hnew.filled s hneeded
  obtain ⟨buf', rest', hloop, hvalid, hvalids, hview, hcontents⟩ :=
    coalesceLoop_spec hneeded nil_prefix hfilled hrest henough hskip
  refine ⟨buf', rest', hloop, hvalid, hvalids, ?_, hcontents⟩
  rw [hview, nil_append, take_take, drop_take, Nat.min_eq_left (by omega), Nat.add_sub_cancel]

/-- The bytes in front of a segment that can be read are brought into it. What was given back
before is still there if the segment is a new one that took the place of the first. -/
theorem coalesce_spec
    (hnew : Fresh newbuffer) (s : WvLinkedBufferStore) (isfirst : Bool) (hbuf : buf.Valid)
    (hrest : ∀ b ∈ rest, b.Valid) (hcount : buf.used < count)
    (henough : count ≤ (contents (buf :: rest)).length) :
    ∃ buf' rest', coalesce newbuffer s isfirst buf rest count = some (buf', rest') ∧
      buf'.Valid ∧ (∀ b ∈ rest', b.Valid) ∧
      buf'.view.content = (contents (buf :: rest)).take count ∧
      contents rest' = (contents (buf :: rest)).drop count ∧ buf'.view.history =
        if buf.free < count - buf.used ∧ isfirst ∧ s.totalused ≠ 0 then
          lastBytes s.maxungettable buf.view.history
        else [] := by
  have hused : buf.used = buf.view.content.length := hbuf.length_content.symm
  rw [coalesce, if_neg (by omega)]
  by_cases hfree : buf.free < count - buf.used
  · rw [if_pos hfree]
    by_cases hfirst : isfirst ∧ s.totalused ≠ 0
    · -- the segment gives back what it has before it is merged into the new one
      rw [if_pos hfirst, if_pos ⟨hfree, hfirst⟩]
      dsimp only
      obtain ⟨buf₁, hunget, hview₁, hvalid₁⟩ :=
        WvCircularBufStore.unget_spec hbuf (Nat.min_le_left buf.ungettable s.maxungettable)
      rw [hunget, bind_some]
      have hlen : buf.view.history.length = buf.ungettable := hbuf.length_history
      have hback : contents (buf₁ :: rest) =
          lastBytes s.maxungettable buf.view.history ++ contents (buf :: rest) := by
        rw [contents_cons, hview₁, contents_cons, ← append_assoc, ← lastBytes_min, hlen]
        rfl
      have hskip : (lastBytes s.maxungettable buf.view.history).length =
          min buf.ungettable s.maxungettable := by rw [length_lastBytes, hlen]
      have henough' : count + min buf.ungettable s.maxungettable ≤
          (contents (buf₁ :: rest)).length := by
        rw [hback, length_append, hskip]
        omega
      obtain ⟨buf', rest', hloop, hvalid, hvalids, hview, hcontents⟩ :=
        hnew.loop s (by omega) (forall_mem_cons.mpr ⟨hvalid₁, hrest⟩) henough'
      refine ⟨buf', rest', hloop, hvalid, hvalids, ?_, ?_, ?_⟩
      · rw [hview, hback, drop_left' hskip]
      · rw [hcontents, hback, Nat.add_comm, ← drop_drop, drop_left' hskip]
      · rw [hview, hback, take_left' hskip]
    · have hall : count + 0 ≤ (contents (buf :: rest)).length := henough
      rw [if_neg hfirst, if_neg fun h => hfirst h.2]
      obtain ⟨buf', rest', hloop, hvalid, hvalids, hview, hcontents⟩ :=
        hnew.loop s (by omega) (forall_mem_cons.mpr ⟨hbuf, hrest⟩) hall
      refine ⟨buf', rest', hloop, hvalid, hvalids, ?_, hcontents, ?_⟩
      · rw [hview, drop_zero]
      · rw [hview, take_zero]
  · -- there is room behind the content
    rw [if_neg hfree, if_neg fun h => hfree h.1]
    have hfilled := hbuf.filled (Nat.le_of_not_lt hfree)
    have hskip : 0 ≤ buf.view.content.length + (count - buf.used) := Nat.zero_le _
    rw [contents_cons, length_append] at henough
    obtain ⟨buf', rest', hloop, hvalid, hvalids, hview, hcontents⟩ :=
      coalesceLoop_spec (by omega) (prefix_refl _) hfilled hrest (by omega) hskip
    have hle : buf.view.content.length ≤ count := by omega
    refine ⟨buf', rest', hloop, hvalid, hvalids, ?_, ?_, ?_⟩
    · rw [hview, drop_zero, take_contents rest hle, hused]
    · rw [hcontents, drop_contents rest hle, hused]
    · rw [hview, take_zero]

/-! ## Reading -/

theorem contents_dropWhile (h : ∀ buf ∈ list, buf.Valid) :
    contents (list.dropWhile fun buf => buf.used = 0) = contents list := by
  induction list with
  | nil => rfl
  | cons buf list ih =>
    obtain ⟨hbuf, hlist⟩ := forall_mem_cons.mp h
    by_cases hempty : buf.used = 0
    · have hnil : buf.view.content = [] :=
        eq_nil_of_length_eq_zero (hbuf.length_content.trans hempty)
      rw [dropWhile_cons_of_pos (by simpa using hempty), ih hlist, contents_cons, hnil, nil_append]
    · rw [dropWhile_cons_of_neg (by simpa using hempty)]

theorem unlinkEmpty_spec (hs : ∀ buf ∈ s.list, buf.Valid) :
    (∀ buf ∈ s.unlinkEmpty.list, buf.Valid) ∧ s.unlinkEmpty.content = s.content ∧
      s.unlinkEmpty.totalused = s.totalused ∧ s.unlinkEmpty.history <:+ s.history := by
  rw [unlinkEmpty]
  cases hlist : s.list with
  | nil => exact ⟨hs, rfl, rfl, suffix_refl _⟩
  | cons first rest =>
    dsimp only
    by_cases hempty : first.used = 0
    · rw [if_pos hempty, ← hlist]
      refine ⟨fun buf hbuf => hs buf ?_, contents_dropWhile hs, rfl, ?_⟩
      · exact (dropWhile_suffix _).mem hbuf
      · rw [history]
        split
        · exact nil_suffix
        · rw [lastBytes, Nat.sub_zero, drop_length]
          exact nil_suffix
    · rw [if_neg hempty]
      exact ⟨hs, rfl, rfl, suffix_refl _⟩

section Get

variable {newbuffer : WvLinkedBufferStore → Nat → WvCircularBufStore}

theorem coalesce_keeps (hnew : Fresh newbuffer) (s : WvLinkedBufferStore) (isfirst : Bool)
    {buf : WvCircularBufStore} {rest : List WvCircularBufStore} {count : Nat} (hbuf : buf.Valid)
    (hrest : ∀ b ∈ rest, b.Valid) (henough : count ≤ (contents (buf :: rest)).length) :
    ∃ buf' rest', coalesce newbuffer s isfirst buf rest count = some (buf', rest') ∧
      buf'.Valid ∧ (∀ b ∈ rest', b.Valid) ∧ contents (buf' :: rest') = contents (buf :: rest) ∧
      buf'.view.content.length = max buf.used count ∧
      lastBytes s.maxungettable buf'.view.history <:+
        lastBytes s.maxungettable buf.view.history := by
  by_cases hshort : buf.used < count
  · obtain ⟨buf', rest', hcoalesce, hvalid, hvalids, hcontent, hcontents, hhistory⟩ :=
      coalesce_spec hnew s isfirst hbuf hrest hshort henough
    refine ⟨buf', rest', hcoalesce, hvalid, hvalids, ?_, ?_, ?_⟩
    · rw [contents_cons, hcontent, hcontents, take_append_drop]
    · rw [hcontent, length_take_of_le henough, Nat.max_eq_right hshort.le]
    · rw [hhistory]
      split
      · rw [lastBytes_lastBytes]
      · exact (lastBytes_suffix _ _).trans nil_suffix
  · have hle : count ≤ buf.used := Nat.le_of_not_lt hshort
    refine ⟨buf, rest, if_pos hle, hbuf, hrest, rfl, ?_, suffix_refl _⟩
    rw [hbuf.length_content, Nat.max_eq_left hle]
    rfl

theorem get_spec (hnew : Fresh newbuffer) {s : WvLinkedBufferStore} (hs : Inv s) {count : Nat}
    (hcount : count ≤ s.totalused) :
    ∃ s' first kept, s.get newbuffer count = some (s', first) ∧ Inv s' ∧
      s'.content = s.content.drop count ∧ s'.read first count = s.content.take count ∧
      kept <:+ s.history ∧ s'.history = kept ++ s.content.take count := by
  by_cases hzero : count = 0
  · subst hzero
    refine ⟨s, 0, s.history, if_pos rfl, hs, rfl, ?_, suffix_refl _, ?_⟩
    · rw [read, take_zero]
      split
      · rfl
      · rw [slice_zero]
    · rw [take_zero, append_nil]
  · have hlen := hs.total
    obtain ⟨hvalids, hcontent, htotal, hhistory⟩ :=
      unlinkEmpty_spec (s := { s with totalused := s.totalused - count }) hs.valid
    rw [get, if_neg hzero, if_pos hcount]
    dsimp only
    generalize unlinkEmpty { s with totalused := s.totalused - count } = s₁
      at hvalids hcontent htotal hhistory ⊢
    have hcontent₁ : contents s₁.list = s.content := hcontent
    have hhistory₁ : s₁.history <:+ s.history := hhistory
    cases hlist : s₁.list with
    | nil =>
      rw [hlist] at hcontent₁
      rw [← hcontent₁, contents_nil, length_nil] at hlen
      omega
    | cons buf rest =>
      rw [hlist] at hcontent₁ hvalids
      obtain ⟨hbuf, hrest⟩ := forall_mem_cons.mp hvalids
      have henough : count ≤ (contents (buf :: rest)).length := by
        rw [hcontent₁, ← hlen]
        exact hcount
      obtain ⟨buf₁, rest₁, hcoalesce, hbuf₁, hrest₁, hcontents, hlen₁, hkept⟩ :=
        coalesce_keeps hnew s₁ true hbuf hrest henough
      have hfront : (if buf.used < count then coalesce newbuffer s₁ true buf rest count
          else some (buf, rest)) = some (buf₁, rest₁) := by
        split
        · exact hcoalesce
        · rename_i hle
          rw [← hcoalesce, coalesce, if_pos (Nat.le_of_not_lt hle)]
      have hle : count ≤ buf₁.view.content.length := hlen₁ ▸ Nat.le_max_right _ _
      obtain ⟨buf₂, first, hget, hview, hread, hbuf₂⟩ :=
        WvCircularBufStore.get_spec hbuf₁ (hle.trans_eq hbuf₁.length_content)
      have htaken : buf₁.view.content.take count = s.content.take count := by
        rw [← hcontent₁, ← hcontents, contents_cons, take_append_of_le_length hle]
      have hleft : buf₂.view.content ++ contents rest₁ = s.content.drop count := by
        rw [← hcontent₁, ← hcontents, contents_cons, drop_append_of_le_length hle]
        rcases hview with h | h <;> rw [h] <;> rfl
      -- the segment may have lost what was read before
      obtain ⟨older, holder, hview₂⟩ : ∃ older, older <:+ buf₁.view.history ∧
          buf₂.view.history = older ++ s.content.take count := by
        rcases hview with h | h
        · exact ⟨_, suffix_refl _, by rw [h, ← htaken]; rfl⟩
        · exact ⟨[], nil_suffix, by rw [h, ← htaken]; rfl⟩
      have hlength : (s.content.take count).length = count :=
        length_take_of_le (hcount.trans_eq hlen)
      dsimp only
      rw [hfront, bind_some]
      rw [hget]
      refine ⟨_, first, lastBytes s₁.maxungettable older, rfl, ⟨?_, ?_, ?_⟩, hleft, ?_, ?_, ?_⟩
      · exact forall_mem_cons.mpr ⟨hbuf₂, hrest₁⟩
      · show s₁.totalused = (buf₂.view.content ++ contents rest₁).length
        rw [hleft, length_drop, htotal, hlen]
      · nofun
      · rw [← htaken, ← hread]
        rfl
      · refine (lastBytes_mono _ holder).trans (hkept.trans ?_)
        have hfirst : s₁.history = lastBytes s₁.maxungettable buf.view.history := by
          rw [history, hlist]
        rw [← hfirst]
        exact hhistory₁
      · show lastBytes (s₁.maxungettable + count) buf₂.view.history = _
        rw [hview₂, ← lastBytes_append, hlength]

end Get

/-! ## Giving back and writing -/

theorem unget_spec (hs : Inv s) (hcount : count ≤ s.ungettable) :
    ∃ s', s.unget count = some s' ∧ Inv s' ∧
      s'.content = s.history.drop (s.history.length - count) ++ s.content ∧
      s'.history = s.history.take (s.history.length - count) := by
  by_cases hzero : count = 0
  · subst hzero
    refine ⟨s, if_pos rfl, hs, ?_, ?_⟩
    · rw [Nat.sub_zero, drop_length, nil_append]
    · rw [Nat.sub_zero, take_length]
  · rw [hs.ungettable] at hcount
    rw [unget, if_neg hzero]
    cases hlist : s.list with
    | nil =>
      rw [history, hlist, length_nil] at hcount
      omega
    | cons first rest =>
      obtain ⟨hfirst, hrest⟩ := forall_mem_cons.mp (hlist ▸ hs.valid)
      have hhistory : s.history = lastBytes s.maxungettable first.view.history := by
        rw [history, hlist]
      have hcontent : s.content = first.view.content ++ contents rest := by
        rw [content, hlist, contents_cons]
      have hlen := hfirst.length_history
      rw [hhistory, length_lastBytes, hlen] at hcount
      have hle : count ≤ first.ungettable := by omega
      obtain ⟨first', hunget, hview, hvalid⟩ := WvCircularBufStore.unget_spec hfirst hle
      have hlast : s.history.drop (s.history.length - count) =
          first.view.history.drop (first.view.history.length - count) := by
        rw [hhistory, drop_lastBytes (by omega)]
      have hcontent' : first'.view.content ++ contents rest =
          s.history.drop (s.history.length - count) ++ s.content := by
        rw [hview, hlast, hcontent, ← append_assoc]
        rfl
      dsimp only
      rw [if_pos (by omega), hunget]
      refine ⟨_, rfl, ⟨forall_mem_cons.mpr ⟨hvalid, hrest⟩, ?_, ?_⟩, hcontent', ?_⟩
      · show s.totalused + count = (first'.view.content ++ contents rest).length
        rw [hcontent', length_append, length_drop, hhistory, length_lastBytes, hlen, hs.total]
        omega
      · nofun
      · show lastBytes (s.maxungettable - count) first'.view.history = _
        rw [hview, hhistory, take_lastBytes (by omega)]
        rfl

theorem unallocLoop_spec (hlist : ∀ buf ∈ list, buf.Valid)
    (hcount : count ≤ (contents list.reverse).length) :
    ∃ list', unallocLoop count list = some list' ∧ (∀ buf ∈ list', buf.Valid) ∧
      contents list'.reverse =
        (contents list.reverse).take ((contents list.reverse).length - count) ∧
      (list' = [] ∨ list'.getLast?.map (fun buf => buf.view.history) =
        list.getLast?.map fun buf => buf.view.history) := by
  induction list generalizing count with
  | nil =>
    have hzero : count = 0 := Nat.le_zero.mp hcount
    refine ⟨[], if_pos hzero, hlist, ?_, Or.inl rfl⟩
    rw [reverse_nil, contents_nil, take_nil]
  | cons buf rest ih =>
    obtain ⟨hbuf, hrest⟩ := forall_mem_cons.mp hlist
    have hused : buf.unallocable = buf.view.content.length := hbuf.length_content.symm
    have hcontents : contents (buf :: rest).reverse =
        contents rest.reverse ++ buf.view.content := by
      rw [reverse_cons, contents_concat]
    rw [hcontents, length_append] at hcount ⊢
    rw [unallocLoop]
    by_cases hzero : count = 0
    · rw [if_pos hzero, hzero, Nat.sub_zero, ← length_append, take_length]
      exact ⟨buf :: rest, rfl, hlist, hcontents, Or.inr rfl⟩
    · rw [if_neg hzero]
      by_cases hpart : count < buf.unallocable
      · -- the last segment loses its end
        rw [if_pos hpart]
        obtain ⟨buf', hunalloc, hview, hvalid⟩ :=
          WvCircularBufStore.unalloc_spec hbuf (Nat.le_of_lt hpart)
        have hlen : (contents rest.reverse).length + buf.view.content.length - count =
            (contents rest.reverse).length + (buf.view.content.length - count) := by omega
        rw [hunalloc]
        refine ⟨buf' :: rest, rfl, forall_mem_cons.mpr ⟨hvalid, hrest⟩, ?_, Or.inr ?_⟩
        · rw [reverse_cons, contents_concat, hview, hlen, take_length_add_append]
          rfl
        · cases rest with
          | nil =>
            rw [getLast?_singleton, getLast?_singleton, map_some, map_some, hview]
            rfl
          | cons next rest => rw [getLast?_cons_cons, getLast?_cons_cons]
      · rw [if_neg hpart]
        have hmore : count - buf.unallocable ≤ (contents rest.reverse).length := by omega
        obtain ⟨list', hloop, hvalids, hcontents', hlast⟩ := ih hrest hmore
        have hlen : (contents rest.reverse).length + buf.view.content.length - count =
            (contents rest.reverse).length - (count - buf.unallocable) := by omega
        refine ⟨list', hloop, hvalids, ?_, ?_⟩
        · rw [hcontents', hlen, take_append_of_le_length (Nat.sub_le _ _)]
        · cases rest with
          | nil =>
            rcases hlast with h | h
            · exact Or.inl h
            · exact Or.inl (by simpa using h)
          | cons next rest =>
            rw [getLast?_cons_cons]
            exact hlast

theorem unalloc_spec (hs : Inv s) (hcount : count ≤ s.totalused) :
    ∃ s', s.unalloc count = some s' ∧ Inv s' ∧
      s'.content = s.content.take (s.content.length - count) ∧ s'.history <:+ s.history := by
  have hvalid : ∀ buf ∈ s.list.reverse, buf.Valid := fun buf hbuf =>
    hs.valid buf (mem_reverse.mp hbuf)
  have henough : count ≤ (contents s.list.reverse.reverse).length := by
    rw [reverse_reverse]
    exact hcount.trans_eq hs.total
  obtain ⟨list', hloop, hvalids, hcontents, hlast⟩ := unallocLoop_spec hvalid henough
  rw [reverse_reverse] at hcontents
  rw [getLast?_reverse] at hlast
  rw [unalloc, if_pos hcount, hloop]
  refine ⟨_, rfl, ⟨?_, ?_, ?_⟩, hcontents, ?_⟩
  · exact fun buf hbuf => hvalids buf (mem_reverse.mp hbuf)
  · show s.totalused - count = (contents list'.reverse).length
    rw [hcontents, length_take, ← content, hs.total]
    omega
  · exact fun h => if_pos (reverse_eq_nil_iff.mp h)
  · rcases hlast with hnil | hsame
    · rw [hnil]
      exact nil_suffix
    · rw [history, history]
      dsimp only
      cases hrev : list'.reverse with
      | nil => exact nil_suffix
      | cons first rest =>
        have hne : list' ≠ [] := by
          rintro rfl
          cases hrev
        have hfirst : list'.getLast? = some first := by
          rw [← head?_reverse, hrev, head?_cons]
        rw [hfirst, map_some] at hsame
        rw [if_neg hne]
        cases hlist : s.list with
        | nil =>
          rw [hlist] at hsame
          cases hsame
        | cons first' rest' =>
          rw [hlist, head?_cons, map_some] at hsame
          dsimp only
          rw [some.inj hsame]

theorem store_concat {front : List WvCircularBufStore} (h : s.list = front ++ [buf]) (first : Nat)
    (bytes : Str) :
    s.store first bytes =
      { s with list := front ++ [WvCircularBufStore.sink.store buf first bytes] } := by
  rw [store, h, getLast?_concat, dropLast_concat]
  rfl

theorem store_nil (s : WvLinkedBufferStore) (first : Nat) : s.store first [] = s := by
  cases hlast : s.list.getLast? with
  | none => rw [store, hlast]
  | some buf =>
    obtain ⟨front, hlist⟩ := getLast?_eq_some_iff.mp hlast
    have hsame : WvCircularBufStore.sink.store buf first [] = buf := by
      show ({ buf with data := blit buf.data first [] } : WvCircularBufStore) = buf
      rw [blit_nil]
    rw [store_concat hlist, hsame, ← hlist]

theorem Inv.replace_last (hs : Inv s) {front : List WvCircularBufStore}
    {buf' : WvCircularBufStore} (hlist : s.list = front ++ [buf]) (hbuf' : buf'.Valid) {n : Nat}
    (hused : buf'.totalused = buf.totalused + n) :
    Inv { s with list := front ++ [buf'], totalused := s.totalused + n } := by
  have hvalid := hs.valid
  rw [hlist] at hvalid
  obtain ⟨hfront, hlast⟩ := forall_mem_append.mp hvalid
  have hbuf := forall_mem_singleton.mp hlast
  refine ⟨?_, ?_, ?_⟩
  · exact forall_mem_append.mpr ⟨hfront, forall_mem_singleton.mpr hbuf'⟩
  · have htotal := hs.total
    rw [content, hlist, contents_concat, length_append, hbuf.length_content] at htotal
    show s.totalused + n = (contents (front ++ [buf'])).length
    rw [contents_concat, length_append, hbuf'.length_content]
    omega
  · exact fun h => absurd h (append_ne_nil_of_right_ne_nil _ (cons_ne_nil _ _))

/-- What is stored at the pointer of `alloc` comes behind the content. The history is lost if it is
in the segment that is written. -/
theorem alloc_spec {s : WvLinkedBufferStore} (hs : Inv s) {buf : WvCircularBufStore}
    (hlast : s.list.getLast? = some buf) {n room : Nat} (hpos : 0 < n)
    (hfree : n + room ≤ buf.free) :
    ∃ s' first, s.alloc n = some (s', first) ∧
      (∀ bytes, bytes.length = n → Inv (s'.store first bytes) ∧
        (s'.store first bytes).content = s.content ++ bytes ∧
        (s'.store first bytes).history = (if s.list.length = 1 then [] else s.history) ∧
        (s'.store first bytes).list.length = s.list.length ∧ room ≤ (s'.store first bytes).free) ∧
      ∀ xs ys, xs.length + ys.length ≤ n →
        (s'.store first xs).store (first + xs.length) ys = s'.store first (xs ++ ys) := by
  obtain ⟨front, hlist⟩ := getLast?_eq_some_iff.mp hlast
  have hbuf := hs.valid buf (mem_of_getLast? hlast)
  have hroom : WvCircularBufStore.Filled buf.view.content buf buf.view.content (n + room) :=
    hbuf.filled hfree
  obtain ⟨buf', first, halloc, hpending⟩ := hroom.alloc (prefix_refl _) hpos
  have hcontent : s.content = contents front ++ buf.view.content := by
    rw [content, hlist, contents_concat]
  refine ⟨{ s with list := front ++ [buf'], totalused := s.totalused + n }, first, ?_,
    fun bytes hbytes => ?_, fun xs ys hlen => ?_⟩
  · rw [alloc, if_neg (by omega), hlast, bind_some, halloc, hlist, dropLast_concat]
    rfl
  · obtain ⟨-, hfilled⟩ := hpending.filled bytes hbytes
    rw [store_concat rfl]
    generalize WvCircularBufStore.sink.store buf' first bytes = buf'' at hfilled ⊢
    have hcontent' : contents (front ++ [buf'']) = s.content ++ bytes := by
      rw [contents_concat, hfilled.content_eq, hcontent, append_assoc]
    have hused : buf''.totalused = buf.totalused + n := by
      rw [hfilled.used, length_append, hbuf.length_content, hbytes]
    refine ⟨hs.replace_last hlist hfilled.valid hused, hcontent', ?_, ?_, ?_⟩
    · rw [history, history, hlist]
      cases front with
      | nil =>
        have hne : buf.view.content ++ bytes ≠ buf.view.content := by
          intro h
          have hlen := congrArg length h
          rw [length_append] at hlen
          omega
        show lastBytes _ buf''.view.history = _
        rw [hfilled.history hne]
        exact suffix_nil.mp (lastBytes_suffix _ _)
      | cons first front =>
        rw [if_neg (by simp)]
        rfl
    · rw [hlist, length_append, length_append]
      rfl
    · show room ≤ ((front ++ [buf'']).getLast?.map WvCircularBufStore.free).getD 0
      rw [getLast?_concat]
      exact hfilled.le_free
  · rw [store_concat rfl first xs, store_concat rfl first (xs ++ ys), store_concat rfl]
    rw [hpending.parts xs ys hlen]

theorem appendsubbuffer_spec (hs : Inv s) (hbuf : buf.Valid) : Inv (s.appendsubbuffer buf) ∧
      (s.appendsubbuffer buf).content = s.content ++ buf.view.content ∧
      (s.appendsubbuffer buf).history = s.history := by
  have hcontent : contents (s.list ++ [buf]) = s.content ++ buf.view.content := by
    rw [contents_concat]
    rfl
  refine ⟨⟨?_, ?_, ?_⟩, hcontent, ?_⟩
  · exact forall_mem_append.mpr ⟨hs.valid, forall_mem_singleton.mpr hbuf⟩
  · show s.totalused + buf.used = (contents (s.list ++ [buf])).length
    rw [hcontent, length_append, hs.total, hbuf.length_content]
    rfl
  · exact fun h => absurd h (append_ne_nil_of_right_ne_nil _ (cons_ne_nil _ _))
  · rw [history, history, appendsubbuffer]
    cases hlist : s.list with
    | nil =>
      rw [hs.empty hlist, nil_append]
      exact drop_length
    | cons first rest => rfl

theorem zap_spec (s : WvLinkedBufferStore) : Inv s.zap ∧ s.zap.content = [] ∧ s.zap.history = [] :=
  ⟨⟨forall_mem_nil _, rfl, fun _ => rfl⟩, rfl, rfl⟩

end WvLinkedBufferStore

namespace WvDynBufStore

open WvLinkedBufferStore

theorem le_roundup (value : Nat) {boundary : Nat} (h : 0 < boundary) :
    value ≤ roundup value boundary := by
  have hlt := Nat.mod_lt value h
  rw [roundup]
  split <;> omega

theorem fresh_newbuffer (s : WvDynBufStore) : Fresh s.newbuffer := by
  intro linked minsize
  have hsize : ∀ size, minsize ≤ if size < minsize then minsize else size := by
    intro size
    split <;> omega
  refine ⟨_, rfl, ?_⟩
  rw [length_replicate]
  exact (hsize _).trans (le_roundup _ s.pos)

/-- The store has the content, and can give back no more than it could at the start. -/
structure Holds (start : Str) (s : WvDynBufStore) (content : Str) (room : Nat) : Prop where
  inv : Inv s.toWvLinkedBufferStore
  content_eq : s.content = content
  history : s.history <:+ start

variable {s : WvDynBufStore} {q : Queue} {count : Nat}

theorem Holds.alloc {start content : Str} {n room : Nat} (h : Holds start s content (n + room))
    (hpos : 0 < n) :
    ∃ s' first, s.alloc n = some (s', first) ∧
      WvBufStore.Pending sink (Holds start) s' first content n room := by
  -- the last segment has room, or a new one does
  obtain ⟨linked, buf, hlinked, hinv, hcontent, hhistory, hlast, hfree⟩ :
      ∃ linked buf, (if n > s.toWvLinkedBufferStore.free then
          s.appendsubbuffer (s.newbuffer s.toWvLinkedBufferStore n)
        else s.toWvLinkedBufferStore) = linked ∧ Inv linked ∧ linked.content = content ∧
        linked.history <:+ start ∧ linked.list.getLast? = some buf ∧ n ≤ buf.free := by
    by_cases hmore : n > s.toWvLinkedBufferStore.free
    · have hfilled := s.fresh_newbuffer.filled s.toWvLinkedBufferStore hpos
      obtain ⟨hinv, hcontent, hhistory⟩ := appendsubbuffer_spec h.inv hfilled.valid
      rw [hfilled.content_eq, append_nil] at hcontent
      refine ⟨_, _, if_pos hmore, hinv, hcontent.trans h.content_eq, ?_, getLast?_concat,
        hfilled.le_free⟩
      rw [hhistory]
      exact h.history
    · rw [if_neg hmore]
      rw [WvLinkedBufferStore.free] at hmore
      cases hlast : s.list.getLast? with
      | none =>
        rw [hlast] at hmore
        exact absurd hpos hmore
      | some buf =>
        rw [hlast] at hmore
        exact ⟨_, buf, rfl, h.inv, h.content_eq, h.history, hlast, Nat.le_of_not_lt hmore⟩
  obtain ⟨linked', first, halloc, hfilled, hparts⟩ :=
    @WvLinkedBufferStore.alloc_spec _ hinv _ hlast _ 0 hpos hfree
  refine ⟨s.relink linked', first, ?_, fun bytes hbytes => ?_, fun xs ys hlen => ?_⟩
  · rw [WvDynBufStore.alloc, hlinked]
    rw [halloc]
    rfl
  · obtain ⟨hinv', hcontent', hhistory', -⟩ := hfilled bytes hbytes
    refine ⟨hinv', hcontent'.trans (by rw [hcontent]), ?_⟩
    show WvLinkedBufferStore.history (linked'.store first bytes) <:+ start
    rw [hhistory']
    split
    · exact nil_suffix
    · exact hhistory
  · exact congrArg s.relink (hparts xs ys hlen)

theorem sink_writes (start : Str) : WvBufStore.Writes sink (Holds start) where
  optallocable := by
    intro s content room _ _
    show 0 < s.optallocable
    rw [optallocable]
    split
    · decide
    · omega
  alloc h hpos _ := h.alloc hpos

theorem put_spec {s : WvDynBufStore} (hs : Inv s.toWvLinkedBufferStore) (data : Str) :
    ∃ s', s.put data = some s' ∧ Holds s.history s' (s.content ++ data) 0 :=
  WvBufStore.put_spec (sink_writes s.history) ⟨hs, rfl, suffix_refl _⟩

/-! ## Runs -/

/-- The calls of a client, with the bytes that it stores at the pointer of an `alloc`. -/
inductive Call where
  | get (count : Nat)
  | skip (count : Nat)
  | unget (count : Nat)
  | put (data : Str)
  | alloc (bytes : Str)
  | unalloc (count : Nat)
  | zap

/-- The store after a call, and the bytes that are read at the pointer. -/
def machine : Machine WvDynBufStore Call Str where
  step s
    | .get count => (s.get count).map fun (s, first) => (s, s.read first count)
    | .skip count => (s.get count).map fun (s, _) => (s, [])
    | .unget count => (s.unget count).map fun s => (s, [])
    | .put data => (s.put data).map fun s => (s, [])
    | .alloc bytes => (s.alloc bytes.length).map fun (s, first) =>
      (s.relink (s.toWvLinkedBufferStore.store first bytes), [])
    | .unalloc count => (s.unalloc count).map fun s => (s, [])
    | .zap => some (s.zap, [])

def Legal (s : WvDynBufStore) : Call → Prop
  | .get count => count ≤ s.used
  | .skip count => count ≤ s.used
  | .unget count => count ≤ s.ungettable
  | .put data => data.length ≤ s.free
  | .alloc bytes => bytes.length ≤ s.free
  | .unalloc count => count ≤ s.unallocable
  | .zap => True

/-- What a call does to the queue, and what it returns. The queue forgets what was read only at
a `zap`. -/
def follow (q : Queue) : Call → Queue × Str
  | .get count => (q.get count, q.content.take count)
  | .skip count => (q.get count, [])
  | .unget count => (q.unget count, [])
  | .put data => (q.put data, [])
  | .alloc bytes => (q.put bytes, [])
  | .unalloc count => (q.unalloc count, [])
  | .zap => (⟨[], []⟩, [])

def beside : Machine (WvDynBufStore × Queue) Call Str where
  step p call := (machine.step p.1 call).map fun (s, out) => ((s, (follow p.2 call).1), out)

/-- What the client sees of the queue. -/
structure Observed (s : WvDynBufStore) (q : Queue) : Prop where
  content : s.list.flatMap (fun buf => buf.view.content) = q.content
  total : s.totalused = (s.list.map WvCircularBufStore.used).sum
  used : s.used = q.content.length
  ungettable : s.ungettable ≤ q.history.length

def Undoable (s : WvDynBufStore) : Call → Prop
  | .get count => count ≤ s.ungettable
  | .skip count => count ≤ s.ungettable
  | _ => True

/-- The store is the queue, except that it may give back less. -/
structure Refines (s : WvDynBufStore) (q : Queue) : Prop where
  inv : Inv s.toWvLinkedBufferStore
  content : s.content = q.content
  history : s.history <:+ q.history

theorem Refines.observed (h : Refines s q) : Observed s q where
  content := h.content
  total := h.inv.total.trans (length_contents h.inv.valid)
  used := h.inv.total.trans (congrArg length h.content)
  ungettable := by
    rw [h.inv.ungettable]
    exact h.history.length_le

theorem drop_suffix {s t : Str} (h : s <:+ t) (hcount : count ≤ s.length) :
    s.drop (s.length - count) = t.drop (t.length - count) ∧
      s.take (s.length - count) <:+ t.take (t.length - count) := by
  obtain ⟨front, rfl⟩ := h
  have hlen : (front ++ s).length - count = front.length + (s.length - count) := by
    rw [length_append]
    omega
  rw [hlen, drop_length_add_append, take_length_add_append]
  exact ⟨rfl, suffix_append _ _⟩

theorem get_refines (h : Refines s q) (hcount : count ≤ s.used) :
    ∃ s' first, s.get count = some (s', first) ∧ s'.read first count = q.content.take count ∧
      count ≤ s'.ungettable ∧ Refines s' (q.get count) := by
  obtain ⟨linked, first, kept, hget, hinv, hcontent, hread, hkept, hhistory⟩ :=
    get_spec s.fresh_newbuffer h.inv hcount
  have hlen : (s.content.take count).length = count :=
    length_take_of_le (hcount.trans_eq h.inv.total)
  rw [h.content] at hcontent hread hhistory hlen
  refine ⟨s.relink linked, first, ?_, hread, ?_, hinv, hcontent, ?_⟩
  · rw [get, hget]
    rfl
  · show count ≤ linked.ungettable
    rw [hinv.ungettable, hhistory, length_append, hlen]
    omega
  · show linked.history <:+ q.history ++ q.content.take count
    rw [hhistory]
    obtain ⟨front, hfront⟩ := hkept.trans h.history
    exact ⟨front, by rw [← append_assoc, hfront]⟩

theorem unget_refines (h : Refines s q) (hcount : count ≤ s.ungettable) :
    ∃ s', s.unget count = some s' ∧ Refines s' (q.unget count) := by
  obtain ⟨linked, hunget, hinv, hcontent, hhistory⟩ := unget_spec h.inv hcount
  obtain ⟨hback, hkept⟩ := drop_suffix h.history (hcount.trans_eq h.inv.ungettable)
  refine ⟨s.relink linked, ?_, hinv, ?_, ?_⟩
  · rw [unget, hunget]
    rfl
  · exact hcontent.trans (by rw [hback, h.content]; rfl)
  · show linked.history <:+ _
    rw [hhistory]
    exact hkept

theorem get_unget {s : WvDynBufStore} (hs : Inv s.toWvLinkedBufferStore) {count : Nat}
    (hcount : count ≤ s.used) :
    ∃ s₁ first, s.get count = some (s₁, first) ∧ s₁.read first count = s.content.take count ∧
      Inv s₁.toWvLinkedBufferStore ∧ s₁.content = s.content.drop count ∧
      ∀ real ≤ count, count - real ≤ s₁.ungettable ∧ ∃ s₂, s₁.unget (count - real) = some s₂ ∧
        Inv s₂.toWvLinkedBufferStore ∧ s₂.content = s.content.drop real := by
  have h : Refines s ⟨s.history, s.content⟩ := ⟨hs, rfl, suffix_refl _⟩
  obtain ⟨s₁, first, hget, hread, hundo, h₁⟩ := get_refines h hcount
  refine ⟨s₁, first, hget, hread, h₁.inv, h₁.content, fun real hreal => ?_⟩
  obtain ⟨s₂, hunget, h₂⟩ := unget_refines h₁ ((Nat.sub_le count real).trans hundo)
  refine ⟨(Nat.sub_le count real).trans hundo, s₂, hunget, h₂.inv, h₂.content.trans ?_⟩
  -- what is given back is the end of what was read
  have hlen : (s.content.take count).length = count :=
    length_take_of_le (hcount.trans_eq hs.total)
  show (s.history ++ s.content.take count).drop
    ((s.history ++ s.content.take count).length - (count - real)) ++ s.content.drop count = _
  rw [length_append, hlen, Nat.add_sub_assoc (Nat.sub_le count real), Nat.sub_sub_self hreal,
    drop_length_add_append, drop_take, ← Nat.add_sub_cancel' hreal, ← drop_drop,
    Nat.add_sub_cancel_left, take_append_drop]

theorem optgettable_le (hs : Inv s.toWvLinkedBufferStore) : s.optgettable ≤ s.used := by
  rw [optgettable, used, hs.total]
  cases hfind : (s.list.map WvCircularBufStore.optgettable).find? (· ≠ 0) with
  | none => exact Nat.zero_le _
  | some n =>
    obtain ⟨buf, hbuf, rfl⟩ := mem_map.mp (mem_of_find?_eq_some hfind)
    have hle : buf.optgettable ≤ buf.view.content.length :=
      (hs.valid buf hbuf).observed.optgettable_le.trans_eq (hs.valid buf hbuf).length_content.symm
    obtain ⟨front, rest, hlist⟩ := append_of_mem hbuf
    rw [content, hlist, contents_append, contents_cons, length_append, length_append]
    exact hle.trans ((Nat.le_add_right _ _).trans (Nat.le_add_left _ _))

theorem alloc_refines (h : Refines s q) (bytes : Str) :
    ∃ s' first, s.alloc bytes.length = some (s', first) ∧
      Refines (s'.relink (s'.toWvLinkedBufferStore.store first bytes)) (q.put bytes) := by
  by_cases hnil : bytes = []
  · subst hnil
    refine ⟨s.relink s.toWvLinkedBufferStore, 0, ?_, ?_⟩
    · have hroom : ¬ ([] : Str).length > s.toWvLinkedBufferStore.free := Nat.not_lt_zero _
      rw [alloc, if_neg hroom]
      rfl
    · rw [store_nil, Queue.put, append_nil]
      exact h
  · have hholds : Holds s.history s s.content (bytes.length + 0) :=
      ⟨h.inv, rfl, suffix_refl _⟩
    obtain ⟨s', first, halloc, hpending⟩ := hholds.alloc (length_pos_of_ne_nil hnil)
    have hfilled := hpending.filled bytes rfl
    exact ⟨s', first, halloc, hfilled.inv, hfilled.content_eq.trans (by rw [h.content]; rfl),
      hfilled.history.trans h.history⟩

theorem beside_step (h : Refines s q) {call : Call} (hlegal : s.Legal call) :
    ∃ s', beside.step (s, q) call =
      some ((s', (follow q call).1), (follow q call).2) ∧
      s'.Undoable call ∧ Refines s' (follow q call).1 := by
  cases call with
  | get count =>
    obtain ⟨s', first, hget, hread, hundo, hrefines⟩ := get_refines h hlegal
    refine ⟨s', ?_, hundo, hrefines⟩
    simp only [beside, machine, follow, hget, hread, map_some]
  | skip count =>
    obtain ⟨s', first, hget, -, hundo, hrefines⟩ := get_refines h hlegal
    refine ⟨s', ?_, hundo, hrefines⟩
    simp only [beside, machine, hget, map_some]
    rfl
  | unget count =>
    obtain ⟨s', hunget, hrefines⟩ := unget_refines h hlegal
    refine ⟨s', ?_, trivial, hrefines⟩
    simp only [beside, machine, hunget, map_some]
    rfl
  | put data =>
    obtain ⟨s', hput, hholds⟩ := put_spec h.inv data
    refine ⟨s', ?_, trivial, hholds.inv, ?_, hholds.history.trans h.history⟩
    · simp only [beside, machine, hput, map_some]
      rfl
    · exact hholds.content_eq.trans (by rw [h.content]; rfl)
  | alloc bytes =>
    obtain ⟨s', first, halloc, hrefines⟩ := alloc_refines h bytes
    refine ⟨_, ?_, trivial, hrefines⟩
    simp only [beside, machine, halloc, map_some]
    rfl
  | unalloc count =>
    obtain ⟨linked, hunalloc, hinv, hcontent, hhistory⟩ :=
      unalloc_spec h.inv hlegal
    refine ⟨s.relink linked, ?_, trivial, hinv, ?_, hhistory.trans h.history⟩
    · simp only [beside, machine, unalloc, hunalloc, map_some]
      rfl
    · exact hcontent.trans (by rw [h.content]; rfl)
  | zap =>
    obtain ⟨hinv, hcontent, hhistory⟩ := zap_spec s.toWvLinkedBufferStore
    exact ⟨s.zap, rfl, trivial, hinv, hcontent, nil_suffix⟩

def new (granularity minalloc maxalloc : Nat) (pos : 0 < granularity) (le : minalloc ≤ maxalloc) :
    WvDynBufStore :=
  ⟨{}, granularity, minalloc, maxalloc, pos, le⟩

/-- A store follows the queue through every run of legal calls, and none of them fails. -/
theorem refines_fifo {granularity minalloc maxalloc : Nat} (pos : 0 < granularity)
    (le : minalloc ≤ maxalloc) {calls : List Call}
    (hcalls : beside.Along (fun p call => p.1.Legal call)
      (new granularity minalloc maxalloc pos le, ⟨[], []⟩) calls) :
    beside.Runs (fun p call p' out => p'.2 = (follow p.2 call).1 ∧ out = (follow p.2 call).2 ∧
        Observed p'.1 p'.2 ∧ p'.1.Undoable call)
      (new granularity minalloc maxalloc pos le, ⟨[], []⟩) calls := by
  have hstart : Refines (new granularity minalloc maxalloc pos le) ⟨[], []⟩ :=
    ⟨⟨forall_mem_nil _, rfl, fun _ => rfl⟩, rfl, suffix_refl _⟩
  refine @Machine.runs_of_along _ _ _ _ _ _ (fun p => Refines p.1 p.2) ?_ _ hstart _ hcalls
  rintro ⟨s, q⟩ call h hlegal
  obtain ⟨s', hstep, hundo, hrefines⟩ := beside_step h hlegal
  exact ⟨_, _, hstep, ⟨rfl, rfl, hrefines.observed, hundo⟩, hrefines⟩

instance (s : WvDynBufStore) : (call : Call) → Decidable (s.Legal call)
  | .get count => inferInstanceAs (Decidable (count ≤ s.used))
  | .skip count => inferInstanceAs (Decidable (count ≤ s.used))
  | .unget count => inferInstanceAs (Decidable (count ≤ s.ungettable))
  | .put data => inferInstanceAs (Decidable (data.length ≤ s.free))
  | .alloc bytes => inferInstanceAs (Decidable (bytes.length ≤ s.free))
  | .unalloc count => inferInstanceAs (Decidable (count ≤ s.unallocable))
  | .zap => inferInstanceAs (Decidable True)

/-- Three segments, the first of which has been read in part, are brought together by the last
`get`. -/
theorem refines_fifo_segments :
    beside.Runs (fun p call p' out => p'.2 = (follow p.2 call).1 ∧ out = (follow p.2 call).2 ∧
        Observed p'.1 p'.2 ∧ p'.1.Undoable call) (new 1 2 2 Nat.one_pos (le_refl 2), ⟨[], []⟩)
      [.put [1, 2], .get 1, .put [3, 4, 5], .alloc [6, 7, 8, 9], .get 6, .unget 3] :=
  refines_fifo Nat.one_pos (le_refl 2) (by decide +kernel)

end WvDynBufStore

end WvStreams
