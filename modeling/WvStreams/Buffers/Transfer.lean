import WvStreams.Buffers.Store

/-!
# Transfers between buffers

The loops of `WvBufStore` use a store only through its public calls. What they need of a store
that is written is that what is stored at the pointers of `alloc` comes behind its content
(`Writes`), and of a store that is read that `get` takes the next bytes (`Reads`). Then `put`
and `basicmerge` move exactly the bytes that they are given (`put_spec`, `basicmerge_spec`).
-/

namespace WvStreams

open List Option

namespace WvBufStore

/-- The calls that write a store. A pointer is a place in the memory that was allocated last. -/
structure Sink (σ : Type) where
  optallocable : σ → Nat
  alloc : σ → Nat → Option (σ × Nat)
  unalloc : σ → Nat → Option σ
  store : σ → Nat → Str → σ

/-- The calls that read a store; `get` returns the bytes at its pointer, which the loops read
before the store changes again. -/
structure Source (τ : Type) where
  optgettable : τ → Nat
  get : τ → Nat → Option (τ × Str)

section Loops

variable {σ τ : Type} (sink : Sink σ) (source : Source τ)

def put (s : σ) (data : Str) : Option σ :=
  if data = [] then some s
  else
    let amount := min (sink.optallocable s) data.length
    if _h : 0 < amount then
      (sink.alloc s amount).bind fun (s, buf) =>
        put (sink.store s buf (data.take amount)) (data.drop amount)
    else none
termination_by data.length
decreasing_by
  rw [List.length_drop]
  omega

/-- The loop of `basicmerge`: `indata` is what is left of the bytes that were read last, and
`outdata` the place and the number of the bytes that were allocated last and are not written. -/
def mergeLoop (s : σ) (t : τ) (indata : Str) (outdata : Nat × Nat) (count : Nat) : Option (σ × τ) :=
  let input :=
    if indata = [] then source.get t (min (source.optgettable t) count) else some (t, indata)
  input.bind fun (t, indata) =>
    let output :=
      if outdata.2 = 0 then
        let outavail := min (sink.optallocable s) count
        (sink.alloc s outavail).map fun (s, buf) => (s, buf, outavail)
      else some (s, outdata)
    output.bind fun (s, outdata, outavail) =>
      let n := min indata.length outavail
      -- neither store is at its end
      if _h : 0 < n ∧ n ≤ count then
        let s := sink.store s outdata (indata.take n)
        if indata.length < outavail then
          if count - n = 0 then (sink.unalloc s (outavail - n)).map fun s => (s, t)
          else mergeLoop s t [] (outdata + n, outavail - n) (count - n)
        else if count - n = 0 then some (s, t)
        else mergeLoop s t (indata.drop n) (0, 0) (count - n)
      else none
termination_by count
decreasing_by all_goals omega

def basicmerge (s : σ) (t : τ) (count : Nat) : Option (σ × τ) :=
  if count = 0 then some (s, t) else mergeLoop sink source s t [] (0, 0) count

end Loops

/-- The store has some content, and room for some more bytes; whatever else is to be known of
it. -/
abbrev Content (σ : Type) := σ → Str → Nat → Prop

/-- Memory of `n` bytes is allocated at the pointer behind the content. What is stored there
comes behind the content, at once or in parts. -/
structure Pending {σ : Type} (sink : Sink σ) (Holds : Content σ) (s : σ) (buf : Nat)
    (content : Str) (n room : Nat) : Prop where
  filled : ∀ bytes, bytes.length = n → Holds (sink.store s buf bytes) (content ++ bytes) room
  parts : ∀ xs ys, xs.length + ys.length ≤ n →
    sink.store (sink.store s buf xs) (buf + xs.length) ys = sink.store s buf (xs ++ ys)

structure Writes {σ : Type} (sink : Sink σ) (Holds : Content σ) : Prop where
  optallocable : ∀ {s content room}, Holds s content room → 0 < room → 0 < sink.optallocable s
  alloc : ∀ {s content room n}, Holds s content (n + room) → 0 < n → n ≤ sink.optallocable s →
    ∃ s' buf, sink.alloc s n = some (s', buf) ∧ Pending sink Holds s' buf content n room

structure Reads {τ : Type} (source : Source τ) (Has : τ → Str → Prop) : Prop where
  optgettable : ∀ {t content}, Has t content → content ≠ [] → 0 < source.optgettable t
  get : ∀ {t content n}, Has t content → 0 < n → n ≤ source.optgettable t → n ≤ content.length →
    ∃ t', source.get t n = some (t', content.take n) ∧ Has t' (content.drop n)

section Specs

variable {σ τ : Type} {sink : Sink σ} {source : Source τ} {Holds : Content σ}
  {Has : τ → Str → Prop}

variable {content : Str} {room count : Nat}

theorem Pending.part {s : σ} {buf : Nat} {xs : Str} {n : Nat}
    (h : Pending sink Holds s buf content (xs.length + n) room) :
    Pending sink Holds (sink.store s buf xs) (buf + xs.length) (content ++ xs) n room where
  filled := by
    intro bytes hbytes
    rw [h.parts xs bytes (by omega), append_assoc]
    exact h.filled (xs ++ bytes) (by rw [length_append, hbytes])
  parts := by
    intro ys zs hlen
    have hsum : buf + xs.length + ys.length = buf + (xs ++ ys).length := by
      rw [length_append, Nat.add_assoc]
    rw [h.parts xs ys (by omega), hsum, h.parts (xs ++ ys) zs (by rw [length_append]; omega),
      h.parts xs (ys ++ zs) (by rw [length_append]; omega), append_assoc]

theorem put_spec (hw : Writes sink Holds) {s : σ} {content data : Str} {room : Nat}
    (h : Holds s content (data.length + room)) :
    ∃ s', put sink s data = some s' ∧ Holds s' (content ++ data) room := by
  induction hn : data.length using Nat.strong_induction_on generalizing s content data with
  | _ n ih =>
    subst hn
    by_cases hnil : data = []
    · subst hnil
      refine ⟨s, by rw [put, if_pos rfl], ?_⟩
      rw [append_nil]
      rwa [length_nil, Nat.zero_add] at h
    · have hpos : 0 < data.length := length_pos_iff.mpr hnil
      have hopt := hw.optallocable h (by omega)
      have hamount : 0 < min (sink.optallocable s) data.length := by omega
      generalize hk : min (sink.optallocable s) data.length = amount at hamount
      have hsplit : data.length + room = amount + (data.length - amount + room) := by omega
      rw [hsplit] at h
      obtain ⟨s', buf, halloc, hpending⟩ := hw.alloc h hamount (by omega)
      have htake : (data.take amount).length = amount := length_take_of_le (by omega)
      have hfilled := hpending.filled _ htake
      have hdrop : (data.drop amount).length = data.length - amount := length_drop
      rw [← hdrop] at hfilled
      obtain ⟨r, hput, hholds⟩ := ih _ (by omega) hfilled rfl
      rw [append_assoc, take_append_drop] at hholds
      refine ⟨r, ?_, hholds⟩
      rw [put, if_neg hnil]
      rw [hk, dif_pos hamount, halloc]
      exact hput

/-- Before a round of the loop: nothing is allocated, or memory of which a part is written. -/
def Target (sink : Sink σ) (Holds : Content σ) (s : σ) (outdata : Nat × Nat) (content : Str)
    (count room : Nat) : Prop :=
  (outdata.2 = 0 ∧ Holds s content (count + room)) ∨
    (0 < outdata.2 ∧ ∃ more, count = outdata.2 + more ∧
      Pending sink Holds s outdata.1 content outdata.2 (more + room))

theorem Reads.refill (hr : Reads source Has) {t : τ} {indata rest : Str} (h : Has t rest)
    (hpos : 0 < count) (hcount : count ≤ (indata ++ rest).length) (hin : indata.length ≤ count) :
    ∃ t' indata' rest', (if indata = [] then source.get t (min (source.optgettable t) count)
        else some (t, indata)) = some (t', indata') ∧ indata' ++ rest' = indata ++ rest ∧
      0 < indata'.length ∧ indata'.length ≤ count ∧ Has t' rest' := by
  by_cases hnil : indata = []
  · subst hnil
    rw [nil_append] at hcount
    have hne : rest ≠ [] := by
      rintro rfl
      exact absurd hcount (by simpa using Nat.ne_of_gt hpos)
    have hopt := hr.optgettable h hne
    obtain ⟨t', hget, hhas⟩ := hr.get h (n := min (source.optgettable t) count) (by omega)
      (by omega) (by omega)
    have htake : (rest.take (min (source.optgettable t) count)).length =
        min (source.optgettable t) count := length_take_of_le (by omega)
    rw [if_pos rfl]
    exact ⟨t', _, _, hget, take_append_drop _ _, by omega, by omega, hhas⟩
  · rw [if_neg hnil]
    exact ⟨t, indata, rest, rfl, rfl, length_pos_iff.mpr hnil, hin, h⟩

theorem Writes.refill (hw : Writes sink Holds) {s : σ} {outdata : Nat × Nat}
    (h : Target sink Holds s outdata content count room) (hpos : 0 < count) :
    ∃ s' buf n more, (if outdata.2 = 0 then
        let outavail := min (sink.optallocable s) count
        (sink.alloc s outavail).map fun (s, buf) => (s, buf, outavail)
      else some (s, outdata)) = some (s', buf, n) ∧ 0 < n ∧ count = n + more ∧
      Pending sink Holds s' buf content n (more + room) := by
  rcases h with ⟨hnone, hholds⟩ | ⟨hsome, more, hmore, hpending⟩
  · have hopt := hw.optallocable hholds (by omega)
    have hsplit : count + room = min (sink.optallocable s) count +
        (count - min (sink.optallocable s) count + room) := by omega
    rw [hsplit] at hholds
    obtain ⟨s', buf, halloc, hpending⟩ := hw.alloc hholds (by omega) (by omega)
    refine ⟨s', buf, _, _, ?_, ?_, ?_, hpending⟩
    · rw [if_pos hnone]
      dsimp only
      rw [halloc]
      rfl
    · omega
    · omega
  · rw [if_neg (by omega)]
    exact ⟨s, outdata.1, outdata.2, more, rfl, hsome, hmore, hpending⟩

theorem mergeLoop_spec (hw : Writes sink Holds) (hr : Reads source Has) {s : σ} {t : τ}
    {indata rest : Str} {outdata : Nat × Nat} (hpos : 0 < count)
    (hcount : count ≤ (indata ++ rest).length) (hin : indata.length ≤ count) (ht : Has t rest)
    (hs : Target sink Holds s outdata content count room) :
    ∃ s' t', mergeLoop sink source s t indata outdata count = some (s', t') ∧
      Holds s' (content ++ (indata ++ rest).take count) room ∧
      Has t' ((indata ++ rest).drop count) := by
  induction hn : count using Nat.strong_induction_on
    generalizing s t indata rest content outdata count with
  | _ n ih =>
    subst hn
    obtain ⟨t₁, input, rest₁, hinput, happ, hinpos, hinle, ht₁⟩ := hr.refill ht hpos hcount hin
    obtain ⟨s₁, buf, outavail, more, houtput, houtpos, hmore, hpending⟩ := hw.refill hs hpos
    rw [← happ] at hcount ⊢
    rw [mergeLoop]
    rw [hinput, bind_some]
    dsimp only
    rw [houtput, bind_some]
    dsimp only
    rw [dif_pos (by omega)]
    by_cases hshort : input.length < outavail
    · -- all that was read is written, and there is memory left
      have hmin : min input.length outavail = input.length := by omega
      have hleft : ¬ count - input.length = 0 := by omega
      have houtavail : outavail = input.length + (outavail - input.length) := by omega
      rw [houtavail] at hpending
      have htarget : Target sink Holds (sink.store s₁ buf input)
          (buf + input.length, outavail - input.length) (content ++ input)
          (count - input.length) room := by
        refine Or.inr ⟨?_, more, ?_, hpending.part⟩
        · show 0 < outavail - input.length
          omega
        · show count - input.length = outavail - input.length + more
          omega
      have hcount' : count - input.length ≤ (([] : Str) ++ rest₁).length := by
        rw [length_append] at hcount
        rw [nil_append]
        omega
      have hin' : ([] : Str).length ≤ count - input.length := Nat.zero_le _
      obtain ⟨s', t', hloop, hholds, hhas⟩ :=
        ih (count - input.length) (by omega) (by omega) hcount' hin' ht₁ htarget rfl
      rw [hmin, take_length, if_pos hshort, if_neg hleft]
      refine ⟨s', t', hloop, ?_, ?_⟩
      · rw [take_append, take_of_length_le hinle, ← append_assoc]
        exact hholds
      · rw [drop_append, drop_of_length_le hinle, nil_append]
        exact hhas
    · -- the memory is full
      have hmin : min input.length outavail = outavail := by omega
      have htake : (input.take outavail).length = outavail := length_take_of_le (by omega)
      have hfilled := hpending.filled _ htake
      rw [hmin, if_neg hshort]
      by_cases hdone : count - outavail = 0
      · have hall : input.length = count := by omega
        have hfull : outavail = input.length := by omega
        have hzero : more = 0 := by omega
        rw [if_pos hdone]
        refine ⟨_, t₁, rfl, ?_, ?_⟩
        · rw [hzero, Nat.zero_add, hfull, take_length] at hfilled
          rw [← hall, take_left, hfull, take_length]
          exact hfilled
        · rw [← hall, drop_left]
          exact ht₁
      · have hmore' : more = count - outavail := by omega
        rw [hmore'] at hfilled
        have hdrop : (input.drop outavail).length = input.length - outavail := length_drop
        have happ' : (input ++ rest₁).take count = input.take outavail ++
            (input.drop outavail ++ rest₁).take (count - outavail) := by
          have hsum : count = outavail + (count - outavail) := by omega
          have hfront : input.take outavail = (input ++ rest₁).take outavail :=
            (take_append_of_le_length (by omega)).symm
          rw [← drop_append_of_le_length (by omega), hfront, ← take_add, ← hsum]
        have happ'' : (input ++ rest₁).drop count =
            (input.drop outavail ++ rest₁).drop (count - outavail) := by
          have hsum : count = outavail + (count - outavail) := by omega
          rw [← drop_append_of_le_length (by omega), drop_drop, ← hsum]
        have hcount' : count - outavail ≤ (input.drop outavail ++ rest₁).length := by
          rw [length_append] at hcount ⊢
          omega
        have hin' : (input.drop outavail).length ≤ count - outavail := by omega
        have htarget : Target sink Holds (sink.store s₁ buf (input.take outavail)) (0, 0)
            (content ++ input.take outavail) (count - outavail) room := Or.inl ⟨rfl, hfilled⟩
        obtain ⟨s', t', hloop, hholds, hhas⟩ :=
          ih (count - outavail) (by omega) (by omega) hcount' hin' ht₁ htarget rfl
        rw [if_neg hdone]
        refine ⟨s', t', hloop, ?_, ?_⟩
        · rw [happ', ← append_assoc]
          exact hholds
        · rw [happ'']
          exact hhas

theorem basicmerge_spec (hw : Writes sink Holds) (hr : Reads source Has) {s : σ} {t : τ}
    {content indata : Str} {count room : Nat} (hs : Holds s content (count + room))
    (ht : Has t indata) (hcount : count ≤ indata.length) :
    ∃ s' t', basicmerge sink source s t count = some (s', t') ∧
      Holds s' (content ++ indata.take count) room ∧ Has t' (indata.drop count) := by
  by_cases hzero : count = 0
  · subst hzero
    rw [Nat.zero_add] at hs
    refine ⟨s, t, if_pos rfl, ?_, ht⟩
    rw [take_zero, append_nil]
    exact hs
  · rw [basicmerge, if_neg hzero]
    have hstart : Target sink Holds s (0, 0) content count room := Or.inl ⟨rfl, hs⟩
    exact mergeLoop_spec hw hr (Nat.pos_of_ne_zero hzero) hcount (Nat.zero_le _) ht hstart

end Specs

/-- A property of the store that calls keep if they succeed. -/
structure Sink.Keeps {σ : Type} (sink : Sink σ) (P : σ → Prop) : Prop where
  alloc : ∀ {s n s' buf}, P s → sink.alloc s n = some (s', buf) → P s'
  unalloc : ∀ {s n s'}, P s → sink.unalloc s n = some s' → P s'
  store : ∀ {s} buf bytes, P s → P (sink.store s buf bytes)

structure Source.Keeps {τ : Type} (source : Source τ) (Q : τ → Prop) : Prop where
  get : ∀ {t n t' bytes}, Q t → source.get t n = some (t', bytes) → Q t'

section Keeps

variable {σ τ : Type} {sink : Sink σ} {source : Source τ} {P : σ → Prop} {Q : τ → Prop}

theorem put_keeps (hk : sink.Keeps P) {s s' : σ} {data : Str} (hs : P s)
    (h : put sink s data = some s') : P s' := by
  induction hn : data.length using Nat.strong_induction_on generalizing s data with
  | _ n ih =>
    subst hn
    rw [put] at h
    by_cases hnil : data = []
    · rw [if_pos hnil] at h
      obtain rfl := some.inj h
      exact hs
    · rw [if_neg hnil] at h
      by_cases hamount : 0 < min (sink.optallocable s) data.length
      · rw [dif_pos hamount] at h
        obtain ⟨⟨s₁, buf⟩, halloc, hput⟩ := bind_eq_some_iff.mp h
        have hless : (data.drop (min (sink.optallocable s) data.length)).length < data.length := by
          rw [length_drop]
          omega
        exact ih _ hless (hk.store _ _ (hk.alloc hs halloc)) hput rfl
      · rw [dif_neg hamount] at h
        cases h

theorem mergeLoop_keeps (hk : sink.Keeps P) (hl : source.Keeps Q) {s s' : σ} {t t' : τ}
    {indata : Str} {outdata : Nat × Nat} {count : Nat} (hs : P s) (ht : Q t)
    (h : mergeLoop sink source s t indata outdata count = some (s', t')) : P s' ∧ Q t' := by
  induction hn : count using Nat.strong_induction_on generalizing s t indata outdata count with
  | _ n ih =>
    subst hn
    rw [mergeLoop] at h
    obtain ⟨⟨t₁, input⟩, hinput, h⟩ := bind_eq_some_iff.mp h
    have ht₁ : Q t₁ := by
      split at hinput
      · exact hl.get ht hinput
      · obtain ⟨rfl, -⟩ := Prod.mk.inj (some.inj hinput)
        exact ht
    obtain ⟨⟨s₁, buf, outavail⟩, houtput, h⟩ := bind_eq_some_iff.mp h
    have hs₁ : P s₁ := by
      split at houtput
      · obtain ⟨⟨s₂, buf₂⟩, halloc, heq⟩ := map_eq_some_iff.mp houtput
        obtain ⟨rfl, -⟩ := Prod.mk.inj heq
        exact hk.alloc hs halloc
      · obtain ⟨rfl, -⟩ := Prod.mk.inj (some.inj houtput)
        exact hs
    dsimp only at h
    by_cases hn : 0 < min input.length outavail ∧ min input.length outavail ≤ count
    · rw [dif_pos hn] at h
      generalize hk' : min input.length outavail = k at hn h
      have hstored : P (sink.store s₁ buf (input.take k)) := hk.store _ _ hs₁
      by_cases hshort : input.length < outavail
      · rw [if_pos hshort] at h
        by_cases hdone : count - k = 0
        · rw [if_pos hdone] at h
          obtain ⟨s₂, hunalloc, heq⟩ := map_eq_some_iff.mp h
          obtain ⟨rfl, rfl⟩ := Prod.mk.inj heq
          exact ⟨hk.unalloc hstored hunalloc, ht₁⟩
        · rw [if_neg hdone] at h
          exact ih _ (by omega) hstored ht₁ h rfl
      · rw [if_neg hshort] at h
        by_cases hdone : count - k = 0
        · rw [if_pos hdone] at h
          obtain ⟨rfl, rfl⟩ := Prod.mk.inj (some.inj h)
          exact ⟨hstored, ht₁⟩
        · rw [if_neg hdone] at h
          exact ih _ (by omega) hstored ht₁ h rfl
    · rw [dif_neg hn] at h
      cases h

theorem basicmerge_keeps (hk : sink.Keeps P) (hl : source.Keeps Q) {s s' : σ} {t t' : τ}
    {count : Nat} (hs : P s) (ht : Q t) (h : basicmerge sink source s t count = some (s', t')) :
    P s' ∧ Q t' := by
  rw [basicmerge] at h
  split at h
  · obtain ⟨rfl, rfl⟩ := Prod.mk.inj (some.inj h)
    exact ⟨hs, ht⟩
  · exact mergeLoop_keeps hk hl hs ht h

end Keeps

/-- Memory that is allocated was free before, and bytes that are stored there leave as much free.
`Fits` says that memory at a pointer is in the store. -/
structure Sink.Bounded {σ : Type} (sink : Sink σ) (free : σ → Nat) (Ok : σ → Prop)
    (Fits : σ → Nat → Nat → Prop) : Prop where
  alloc : ∀ {s n s' buf}, Ok s → sink.alloc s n = some (s', buf) →
    Ok s' ∧ free s' + n = free s ∧ Fits s' buf n
  store : ∀ {s buf n bytes}, Ok s → Fits s buf n → bytes.length ≤ n →
    Ok (sink.store s buf bytes) ∧ free (sink.store s buf bytes) = free s ∧
      Fits (sink.store s buf bytes) (buf + bytes.length) (n - bytes.length)

section Bounded

variable {σ τ : Type} {sink : Sink σ} {source : Source τ} {free : σ → Nat} {Ok : σ → Prop}
  {Fits : σ → Nat → Nat → Prop}

theorem mergeLoop_bounded (hb : sink.Bounded free Ok Fits) {s s' : σ} {t t' : τ} {indata : Str}
    {outdata : Nat × Nat} {count : Nat} (hs : Ok s)
    (hfits : outdata.2 = 0 ∨ Fits s outdata.1 outdata.2)
    (h : mergeLoop sink source s t indata outdata count = some (s', t')) :
    count ≤ free s + outdata.2 := by
  induction hn : count using Nat.strong_induction_on generalizing s t indata outdata count with
  | _ n ih =>
    subst hn
    rw [mergeLoop] at h
    obtain ⟨⟨t₁, input⟩, -, h⟩ := bind_eq_some_iff.mp h
    obtain ⟨⟨s₁, buf, outavail⟩, houtput, h⟩ := bind_eq_some_iff.mp h
    have hfits₁ : Ok s₁ ∧ free s₁ + outavail = free s + outdata.2 ∧ Fits s₁ buf outavail := by
      split at houtput
      · rename_i hzero
        obtain ⟨⟨s₂, buf₂⟩, halloc, heq⟩ := map_eq_some_iff.mp houtput
        cases heq
        rw [hzero]
        exact hb.alloc hs halloc
      · rename_i hmore
        cases houtput
        exact ⟨hs, rfl, hfits.resolve_left hmore⟩
    obtain ⟨hs₁, hsame, hfits₁⟩ := hfits₁
    dsimp only at h
    by_cases hn : 0 < min input.length outavail ∧ min input.length outavail ≤ count
    · rw [dif_pos hn] at h
      have hlen : (input.take (min input.length outavail)).length = min input.length outavail :=
        length_take_of_le (Nat.min_le_left _ _)
      obtain ⟨hs₂, hfree, hfits₂⟩ := hb.store hs₁ hfits₁
        (show (input.take (min input.length outavail)).length ≤ _ by omega)
      rw [hlen] at hfits₂
      by_cases hshort : input.length < outavail
      · rw [if_pos hshort] at h
        by_cases hdone : count - min input.length outavail = 0
        · omega
        · rw [if_neg hdone] at h
          have hrest := ih _ (by omega) hs₂ (Or.inr hfits₂) h rfl
          omega
      · rw [if_neg hshort] at h
        by_cases hdone : count - min input.length outavail = 0
        · omega
        · rw [if_neg hdone] at h
          have hrest := ih _ (by omega) hs₂ (Or.inl rfl) h rfl
          dsimp only at hrest
          omega
    · rw [dif_neg hn] at h
      cases h

theorem basicmerge_bounded (hb : sink.Bounded free Ok Fits) {s s' : σ} {t t' : τ} {count : Nat}
    (hs : Ok s) (h : basicmerge sink source s t count = some (s', t')) : count ≤ free s := by
  rw [basicmerge] at h
  split at h
  · omega
  · exact mergeLoop_bounded hb hs (Or.inl rfl) h

end Bounded

end WvBufStore

end WvStreams
