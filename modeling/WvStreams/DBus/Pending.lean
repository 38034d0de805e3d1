import WvStreams.Containers.HashTable
import WvStreams.Lib.Machine

/-!
# Pending replies

A `WvDBusConn` keeps an entry for each message that waits for a reply. A reply calls the callback
and then removes the entry, while `expire_pending` and `cancel_pending` remove the entry first.
Callbacks come back to the connection, so its state has a stack of the calls that have not
returned yet. Every callback is invoked once if and only if nothing cancels the serial that is
being answered and no expired entry hides behind an older one with its serial (`fires_once_iff`).
-/

namespace WvStreams

open List

/-- `id` is the ordinal of the entry, and names its callback. -/
structure Pending where
  id : Nat
  serial : UInt32
  valid_until : Nat
  deriving DecidableEq

instance : Accessor Pending UInt32 where
  get_key := Pending.serial
  hash serial := serial

@[simp] theorem get_key_pending (p : Pending) : get_key p = p.serial := rfl

inductive Frame
  /-- `filter_func` has called `p->cb`. -/
  | answering (p : Pending)
  /-- `expire_pending` or `cancel_pending` has called `xcb`. -/
  | error (id : Nat)
  /-- `add_pending` has called `cancel_pending`. -/
  | adding (serial : UInt32) (valid_until : Nat)
  /-- The loop in `post_select` has called `expire_pending`, or begins. -/
  | expiring (now : Nat)
  deriving DecidableEq

namespace Frame

/-- Whether the frame is that of a callback, which may call the connection. -/
def callback : Frame → Bool
  | .answering _ | .error _ => true
  | .adding _ _ | .expiring _ => false

def selecting : Frame → Bool
  | .answering _ | .expiring _ => true
  | .error _ | .adding _ _ => false

end Frame

/-- The part of the connection that is about replies. -/
structure WvDBusConn where
  pending : WvHashTable Pending := .empty 10
  stack : List Frame := []
  /-- The number of entries that were made. -/
  count : Nat := 0
  /-- The callbacks that were invoked, in order. -/
  invoked : List Nat := []

namespace WvDBusConn

/-- What comes from outside or from the callback that runs; `resume` lets the connection go on
where its own code is not finished. -/
inductive Input
  | reply (rserial : UInt32)
  | expire (now : Nat)
  | cancel (serial : UInt32)
  | add (serial : UInt32) (valid_until : Nat)
  | return
  | resume
  deriving DecidableEq

/-- Whether a caller has control. -/
def free (c : WvDBusConn) : Bool := c.stack.head?.all Frame.callback

/-- `xcb(e)` after `pending.remove(p)`. -/
def fire (c : WvDBusConn) (p : Pending) : WvDBusConn :=
  { c with
    pending := c.pending.remove p.serial
    stack := .error p.id :: c.stack
    invoked := c.invoked ++ [p.id] }

def cancel_pending (c : WvDBusConn) (serial : UInt32) : WvDBusConn :=
  match c.pending.find serial with
  | some p => c.fire p
  | none => c

def append (c : WvDBusConn) (serial : UInt32) (valid_until : Nat) : WvDBusConn :=
  { c with
    pending := c.pending.add { id := c.count, serial, valid_until }
    count := c.count + 1 }

def add_pending (c : WvDBusConn) (serial : UInt32) (valid_until : Nat) : WvDBusConn :=
  if (c.pending.find serial).isSome then
    { c with stack := .adding serial valid_until :: c.stack }.cancel_pending serial
  else c.append serial valid_until

def answer (c : WvDBusConn) (rserial : UInt32) : WvDBusConn :=
  match c.pending.find rserial with
  | some p => { c with stack := .answering p :: c.stack, invoked := c.invoked ++ [p.id] }
  | none => c

/-- What the iterator of the expiry loop stops at. -/
def expired (c : WvDBusConn) (now : Nat) : Option Pending :=
  c.pending.toList.find? fun p => p.valid_until < now

/-- The next step, none if it uses an entry that was removed. What is not possible in a state
changes nothing; `add_pending` asserts that the serial is not 0. -/
def step (c : WvDBusConn) : Input → Option WvDBusConn
  | .reply rserial => if c.stack = [] ∧ rserial ≠ 0 then some (c.answer rserial) else some c
  | .expire now => if c.stack = [] then some { c with stack := [.expiring now] } else some c
  | .cancel serial => if c.free then some (c.cancel_pending serial) else some c
  | .add serial valid_until =>
    if c.free ∧ serial ≠ 0 then some (c.add_pending serial valid_until) else some c
  | .return =>
    match c.stack with
    | .answering p :: stack =>
      -- the removal reads the serial of the entry
      if p ∈ c.pending.toList then some { c with pending := c.pending.remove p.serial, stack }
      else none
    | .error _ :: stack => some { c with stack }
    | _ => some c
  | .resume =>
    match c.stack with
    | .adding serial valid_until :: stack => some ({ c with stack }.append serial valid_until)
    | .expiring now :: stack =>
      match c.expired now with
      | some p => some (c.fire p)
      | none => some { c with stack }
    | _ => some c

def machine : Lib.Machine WvDBusConn Input Unit where
  step c i := (c.step i).map (·, ())

/-- No callback was invoked twice, and one whose entry is not in the table any more was
invoked. -/
structure Once (c : WvDBusConn) : Prop where
  nodup : c.invoked.Nodup
  left : ∀ id < c.count, (∀ p ∈ c.pending.toList, p.id ≠ id) → id ∈ c.invoked

/-- Nothing cancels the serial of the reply that a callback is being called for, and the expiry
loop takes the first entry with a serial. -/
def Proper (c : WvDBusConn) : Input → Prop
  | .cancel serial => c.free = true → ∀ p, Frame.answering p ∈ c.stack → p.serial ≠ serial
  | .add serial _ => c.free = true ∧ serial ≠ 0 →
      ∀ p, Frame.answering p ∈ c.stack → p.serial ≠ serial
  | .resume => ∀ now stack, c.stack = .expiring now :: stack →
      ∀ p, c.expired now = some p → c.pending.find p.serial = some p
  | _ => True

/-- What holds in a run of proper steps; the table has the entries of `l`. -/
structure Inv (c : WvDBusConn) (l : List Pending) : Prop where
  holds : c.pending.Holds l
  ids : (l.map Pending.id).Nodup
  fresh : ∀ p ∈ l, p.id < c.count
  begun : ∀ id ∈ c.invoked, id < c.count
  nodup : c.invoked.Nodup
  waiting : ∀ p ∈ l, p.id ∈ c.invoked → .answering p ∈ c.stack
  answering : ∀ p, .answering p ∈ c.stack →
    l.find? (fun q => get_key q = p.serial) = some p ∧ p.id ∈ c.invoked
  left : ∀ id < c.count, (∀ p ∈ l, p.id ≠ id) → id ∈ c.invoked
  bottom : ∀ f ∈ c.stack.dropLast, f.selecting = false

variable {c : WvDBusConn} {l : List Pending}

variable {p : Pending} {stack : List Frame} {f : Frame}

theorem Inv.mem_toList (h : c.Inv l) : p ∈ c.pending.toList ↔ p ∈ l :=
  h.holds.perm.mem_iff

theorem Inv.once (h : c.Inv l) : c.Once :=
  ⟨h.nodup, fun id hid hp => h.left id hid fun p hmem => hp p (h.mem_toList.mpr hmem)⟩

theorem split_of_find (h : l.find? (fun q => get_key q = p.serial) = some p) :
    ∃ front back, l = front ++ p :: back ∧
      (l.eraseP fun q => get_key q = p.serial) = front ++ back ∧
        ∀ q ∈ front, q.serial ≠ p.serial := by
  obtain ⟨-, front, back, hl, hfront⟩ := find?_eq_some_iff_append.mp h
  have hne : ∀ q ∈ front, q.serial ≠ p.serial := fun q hq heq => by
    have hkey := hfront q hq
    simp only [Bool.not_eq_true', decide_eq_false_iff_not] at hkey
    exact hkey heq
  refine ⟨front, back, hl, ?_, hne⟩
  rw [hl, eraseP_append_right _ fun q hq => by simpa using hne q hq]
  rw [eraseP_cons_of_pos (by simp)]

theorem find?_of_ne {q : Pending} {front back : List Pending} (hne : q.serial ≠ p.serial) :
    (front ++ p :: back).find? (fun r => get_key r = q.serial) =
      (front ++ back).find? (fun r => get_key r = q.serial) := by
  rw [find?_append, find?_append, find?_cons_of_neg]
  simpa using Ne.symm hne

theorem dropLast_push (hf : f.selecting = false) (h : ∀ g ∈ stack.dropLast, g.selecting = false) :
    ∀ g ∈ (f :: stack).dropLast, g.selecting = false := by
  cases stack with
  | nil => exact nofun
  | cons g stack => exact forall_mem_cons.mpr ⟨hf, h⟩

theorem dropLast_pop (h : ∀ g ∈ (f :: stack).dropLast, g.selecting = false) :
    ∀ g ∈ stack.dropLast, g.selecting = false := by
  cases stack with
  | nil => exact nofun
  | cons g stack => exact fun g hg => h g (mem_cons_of_mem _ hg)

theorem eq_nil_of_selecting (hf : f.selecting = true)
    (h : ∀ g ∈ (f :: stack).dropLast, g.selecting = false) : stack = [] := by
  cases stack with
  | nil => rfl
  | cons g stack =>
    have hfalse := h f mem_cons_self
    rw [hf] at hfalse
    cases hfalse

theorem Inv.pop (h : c.Inv l) (hstack : c.stack = f :: stack) (hf : ∀ p, f ≠ .answering p) :
    Inv { c with stack } l where
  holds := h.holds
  ids := h.ids
  fresh := h.fresh
  begun := h.begun
  nodup := h.nodup
  waiting p hp hid := by
    have hmem := h.waiting p hp hid
    rw [hstack] at hmem
    exact (mem_cons.mp hmem).resolve_left fun heq => hf p heq.symm
  answering p hp := h.answering p (hstack ▸ mem_cons_of_mem _ hp)
  left := h.left
  bottom := dropLast_pop (hstack ▸ h.bottom)

theorem Inv.push (h : c.Inv l) {f : Frame} (hf : ∀ p, f ≠ .answering p)
    (hbottom : ∀ g ∈ (f :: c.stack).dropLast, g.selecting = false) :
    Inv { c with stack := f :: c.stack } l where
  holds := h.holds
  ids := h.ids
  fresh := h.fresh
  begun := h.begun
  nodup := h.nodup
  waiting p hp hid := mem_cons_of_mem _ (h.waiting p hp hid)
  answering p hp := h.answering p ((mem_cons.mp hp).resolve_left fun heq => hf p heq.symm)
  left := h.left
  bottom := hbottom

theorem Inv.notMem_invoked (h : c.Inv l) (hp : p ∈ l)
    (hserial : ∀ q, Frame.answering q ∈ c.stack → q.serial ≠ p.serial) : p.id ∉ c.invoked :=
  fun hid => hserial p (h.waiting p hp hid) rfl

theorem nodup_concat {ids : List Nat} (h : ids.Nodup) {id : Nat} (hid : id ∉ ids) :
    (ids ++ [id]).Nodup := by
  rw [nodup_append]
  refine ⟨h, pairwise_singleton _ _, ?_⟩
  rintro i hi _ hlast rfl
  exact hid (mem_singleton.mp hlast ▸ hi)

theorem Inv.erase (h : c.Inv l) (hp : l.find? (fun q => get_key q = p.serial) = some p)
    {invoked : List Nat} (hinvoked : ∀ id, id ∈ invoked ↔ id ∈ c.invoked ∨ id = p.id)
    (hnodup : invoked.Nodup) (hbottom : ∀ g ∈ stack.dropLast, g.selecting = false)
    (hstack : ∀ q, .answering q ∈ stack ↔ .answering q ∈ c.stack ∧ q ≠ p)
    (hserial : ∀ q, Frame.answering q ∈ c.stack → q ≠ p → q.serial ≠ p.serial) :
    Inv { c with pending := c.pending.remove p.serial, stack, invoked }
      (l.eraseP fun q => get_key q = p.serial) := by
  obtain ⟨front, back, hl, herase, -⟩ := split_of_find hp
  have hpl : p ∈ l := mem_of_find?_eq_some hp
  have hmem : ∀ q, q ∈ front ++ back → q ∈ l ∧ q.id ≠ p.id := by
    intro q hq
    have hids := h.ids
    rw [hl, map_append, map_cons, nodup_middle, nodup_cons, ← map_append] at hids
    refine ⟨?_, fun heq => hids.1 (heq ▸ mem_map_of_mem hq)⟩
    rw [hl]
    rcases mem_append.mp hq with hq | hq
    · exact mem_append_left _ hq
    · exact mem_append_right _ (mem_cons_of_mem _ hq)
  refine ⟨h.holds.remove p.serial, ?_, ?_, ?_, hnodup, ?_, ?_, ?_, hbottom⟩
  · have hids := h.ids
    rw [hl, map_append, map_cons, nodup_middle, nodup_cons, ← map_append] at hids
    exact herase ▸ hids.2
  · intro q hq
    exact h.fresh q (hmem q (herase ▸ hq)).1
  · intro id hid
    rcases (hinvoked id).mp hid with hid | rfl
    · exact h.begun id hid
    · exact h.fresh p hpl
  · intro q hq hid
    obtain ⟨hq, hne⟩ := hmem q (herase ▸ hq)
    have hid := ((hinvoked q.id).mp hid).resolve_right hne
    exact (hstack q).mpr ⟨h.waiting q hq hid, fun heq => hne (heq ▸ rfl)⟩
  · intro q hq
    obtain ⟨hq, hne⟩ := (hstack q).mp hq
    obtain ⟨hfind, hid⟩ := h.answering q hq
    refine ⟨?_, (hinvoked q.id).mpr (Or.inl hid)⟩
    rw [hl, find?_of_ne (hserial q hq hne)] at hfind
    rw [herase]
    exact hfind
  · intro id hid hgone
    rw [hinvoked]
    by_cases hpid : id = p.id
    · exact Or.inr hpid
    · refine Or.inl (h.left id hid fun q hq => ?_)
      rw [hl] at hq
      rcases mem_append.mp hq with hq | hq
      · exact hgone q (herase ▸ mem_append_left _ hq)
      · rcases mem_cons.mp hq with rfl | hq
        · exact Ne.symm hpid
        · exact hgone q (herase ▸ mem_append_right _ hq)

theorem Inv.fire (h : c.Inv l) (hp : l.find? (fun q => get_key q = p.serial) = some p)
    (hserial : ∀ q, Frame.answering q ∈ c.stack → q.serial ≠ p.serial) :
    (c.fire p).Inv (l.eraseP fun q => get_key q = p.serial) := by
  refine h.erase hp (fun id => ?_) ?_ ?_ (fun q => ?_) fun q hq _ => hserial q hq
  · rw [mem_append, mem_singleton]
  · exact nodup_concat h.nodup (h.notMem_invoked (mem_of_find?_eq_some hp) hserial)
  · exact dropLast_push rfl h.bottom
  · constructor
    · intro hq
      have hq := (mem_cons.mp hq).resolve_left nofun
      exact ⟨hq, fun heq => hserial q hq (heq ▸ rfl)⟩
    · exact fun hq => mem_cons_of_mem _ hq.1

theorem Inv.append (h : c.Inv l) (serial : UInt32) (valid_until : Nat) :
    (c.append serial valid_until).Inv (l ++ [{ id := c.count, serial, valid_until }]) := by
  have hnew : ∀ p ∈ l ++ [{ id := c.count, serial, valid_until }],
      p ∈ l ∨ p = { id := c.count, serial, valid_until } := by
    intro p hp
    rwa [mem_append, mem_singleton] at hp
  refine ⟨h.holds.add _, ?_, ?_, ?_, h.nodup, ?_, ?_, ?_, h.bottom⟩
  · rw [map_append]
    refine nodup_concat h.ids fun hid => ?_
    obtain ⟨p, hp, hcount⟩ := mem_map.mp hid
    exact Nat.ne_of_lt (h.fresh p hp) hcount
  · intro p hp
    rcases hnew p hp with hp | rfl
    · exact Nat.lt_succ_of_lt (h.fresh p hp)
    · exact Nat.lt_succ_self _
  · exact fun id hid => Nat.lt_succ_of_lt (h.begun id hid)
  · intro p hp hid
    rcases hnew p hp with hp | rfl
    · exact h.waiting p hp hid
    · exact absurd (h.begun _ hid) (Nat.lt_irrefl _)
  · intro p hp
    obtain ⟨hfind, hid⟩ := h.answering p hp
    exact ⟨by rw [find?_append, hfind]; rfl, hid⟩
  · intro id hid hgone
    have hlast := hgone { id := c.count, serial, valid_until }
      (mem_append_right _ mem_cons_self)
    exact h.left id (Nat.lt_of_le_of_ne (Nat.le_of_lt_succ hid) (Ne.symm hlast))
      fun p hp => hgone p (mem_append_left _ hp)

theorem Inv.cancel_pending (h : c.Inv l) {serial : UInt32}
    (hserial : ∀ p, Frame.answering p ∈ c.stack → p.serial ≠ serial) :
    ∃ l', (c.cancel_pending serial).Inv l' := by
  unfold WvDBusConn.cancel_pending
  rw [h.holds.find]
  cases hfind : l.find? fun q => get_key q = serial with
  | none => exact ⟨l, h⟩
  | some p =>
    have hp : p.serial = serial := by simpa using find?_some hfind
    subst hp
    exact ⟨_, h.fire hfind hserial⟩

theorem Inv.add_pending (h : c.Inv l) {serial : UInt32} (valid_until : Nat)
    (hserial : ∀ p, Frame.answering p ∈ c.stack → p.serial ≠ serial) :
    ∃ l', (c.add_pending serial valid_until).Inv l' := by
  unfold WvDBusConn.add_pending
  split
  · refine (h.push (fun p => by simp) (dropLast_push rfl h.bottom)).cancel_pending ?_
    intro p hp
    exact hserial p ((mem_cons.mp hp).resolve_left nofun)
  · exact ⟨_, h.append serial valid_until⟩

theorem Inv.answer (h : c.Inv l) (hstack : c.stack = []) (rserial : UInt32) :
    (c.answer rserial).Inv l := by
  unfold WvDBusConn.answer
  rw [h.holds.find]
  cases hfind : l.find? fun q => get_key q = rserial with
  | none => exact h
  | some p =>
    have hp : p.serial = rserial := by simpa using find?_some hfind
    have hpl : p ∈ l := mem_of_find?_eq_some hfind
    have hnew : p.id ∉ c.invoked := by
      refine h.notMem_invoked hpl fun q hq => ?_
      rw [hstack] at hq
      exact absurd hq not_mem_nil
    subst hp
    refine ⟨h.holds, h.ids, h.fresh, ?_, nodup_concat h.nodup hnew, ?_, ?_, ?_, ?_⟩
    · exact forall_mem_append.mpr ⟨h.begun, forall_mem_singleton.mpr (h.fresh p hpl)⟩
    · intro q hq hid
      rcases mem_append.mp hid with hid | hid
      · exact mem_cons_of_mem _ (h.waiting q hq hid)
      · rw [inj_on_of_nodup_map h.ids hq hpl (mem_singleton.mp hid)]
        exact mem_cons_self
    · intro q hq
      have hq : q = p := by simpa [hstack] using hq
      subst hq
      exact ⟨hfind, mem_append_right _ mem_cons_self⟩
    · exact fun id hid hgone => mem_append_left _ (h.left id hid hgone)
    · show ∀ f ∈ (Frame.answering p :: c.stack).dropLast, f.selecting = false
      rw [hstack]
      exact nofun

theorem Inv.answered (h : c.Inv l) {p : Pending} {stack : List Frame}
    (hstack : c.stack = .answering p :: stack) :
    p ∈ l ∧ Inv { c with pending := c.pending.remove p.serial, stack }
      (l.eraseP fun q => get_key q = p.serial) := by
  have hnil : stack = [] := eq_nil_of_selecting rfl (hstack ▸ h.bottom)
  subst hnil
  obtain ⟨hfind, hid⟩ := h.answering p (hstack ▸ mem_cons_self)
  have honly : ∀ q, Frame.answering q ∈ c.stack → q = p := by
    intro q hq
    simpa [hstack] using hq
  refine ⟨mem_of_find?_eq_some hfind, h.erase hfind (fun id => ?_) h.nodup
    nofun (fun q => ?_) fun q hq hne => absurd (honly q hq) hne⟩
  · exact ⟨Or.inl, fun hmem => hmem.elim (fun hmem => hmem) fun heq => heq ▸ hid⟩
  · exact ⟨nofun, fun hq => absurd (honly q hq.1) hq.2⟩

theorem Inv.step (h : c.Inv l) {i : Input} (hi : c.Proper i) :
    ∃ c', c.step i = some c' ∧ ∃ l', c'.Inv l' := by
  cases i with
  | reply rserial =>
    unfold WvDBusConn.step
    dsimp only
    split
    · rename_i hidle
      exact ⟨_, rfl, l, h.answer hidle.1 rserial⟩
    · exact ⟨c, rfl, l, h⟩
  | expire now =>
    unfold WvDBusConn.step
    dsimp only
    split
    · rename_i hidle
      have hpush := h.push (f := .expiring now) (fun p => by simp) (by simp [hidle])
      rw [hidle] at hpush
      exact ⟨_, rfl, l, hpush⟩
    · exact ⟨c, rfl, l, h⟩
  | cancel serial =>
    unfold WvDBusConn.step
    dsimp only
    split
    · rename_i hfree
      exact ⟨_, rfl, h.cancel_pending (hi hfree)⟩
    · exact ⟨c, rfl, l, h⟩
  | add serial valid_until =>
    unfold WvDBusConn.step
    dsimp only
    split
    · rename_i hfree
      exact ⟨_, rfl, h.add_pending valid_until (hi hfree)⟩
    · exact ⟨c, rfl, l, h⟩
  | «return» =>
    unfold WvDBusConn.step
    dsimp only
    split
    · rename_i p stack hstack
      obtain ⟨hp, hinv⟩ := h.answered hstack
      rw [if_pos (h.mem_toList.mpr hp)]
      exact ⟨_, rfl, _, hinv⟩
    · rename_i id stack hstack
      exact ⟨_, rfl, l, h.pop hstack fun p => by simp⟩
    · exact ⟨c, rfl, l, h⟩
  | resume =>
    unfold WvDBusConn.step
    dsimp only
    split
    · rename_i serial valid_until stack hstack
      exact ⟨_, rfl, _, (h.pop hstack fun p => by simp).append serial valid_until⟩
    · rename_i now stack hstack
      cases hexpired : c.expired now with
      | none => exact ⟨_, rfl, l, h.pop hstack fun p => by simp⟩
      | some p =>
        have hfirst := hi now stack hstack p hexpired
        rw [h.holds.find] at hfirst
        refine ⟨_, rfl, _, h.fire hfirst fun q hq => ?_⟩
        -- the loop runs at the bottom, so no reply is being answered
        have hnil : stack = [] := eq_nil_of_selecting rfl (hstack ▸ h.bottom)
        rw [hstack, hnil] at hq
        simp at hq
    · exact ⟨c, rfl, l, h⟩

theorem Inv.proper_of_once_cancel (h : c.Inv l) {serial : UInt32}
    (honce : (c.cancel_pending serial).Once) :
    ∀ p, Frame.answering p ∈ c.stack → p.serial ≠ serial := by
  rintro p hp rfl
  obtain ⟨hfind, hid⟩ := h.answering p hp
  have htwice := honce.nodup
  unfold WvDBusConn.cancel_pending at htwice
  rw [h.holds.find, hfind] at htwice
  have hnot := (nodup_append.mp htwice).2.2 p.id hid p.id mem_cons_self
  exact hnot rfl

theorem Inv.proper_of_once (h : c.Inv l) {i : Input} {c' : WvDBusConn}
    (hstep : c.step i = some c') (honce : c'.Once) : c.Proper i := by
  cases i with
  | reply | expire => trivial
  | «return» => trivial
  | cancel serial =>
    intro hfree
    rw [WvDBusConn.step, if_pos hfree] at hstep
    cases hstep
    exact h.proper_of_once_cancel honce
  | add serial valid_until =>
    intro hfree
    rw [WvDBusConn.step, if_pos hfree] at hstep
    cases hstep
    intro p hp hserial
    obtain ⟨hfind, -⟩ := h.answering p hp
    have hsome : (c.pending.find serial).isSome = true := by
      rw [h.holds.find, ← hserial, hfind]
      rfl
    rw [WvDBusConn.add_pending, if_pos hsome] at honce
    have hpush := h.push (f := .adding serial valid_until) (fun p => by simp)
      (dropLast_push rfl h.bottom)
    exact hpush.proper_of_once_cancel honce p (mem_cons_of_mem _ hp) hserial
  | resume =>
    intro now stack hstack p hexpired
    have hnil : stack = [] := eq_nil_of_selecting rfl (hstack ▸ h.bottom)
    subst hnil
    simp only [WvDBusConn.step, hstack, hexpired] at hstep
    cases hstep
    have hpl : p ∈ l := h.mem_toList.mp (mem_of_find?_eq_some hexpired)
    by_contra hother
    -- the entry that goes is another one, whose callback was never invoked
    obtain ⟨f, hfind⟩ : ∃ f, l.find? (fun q => get_key q = p.serial) = some f := by
      rw [← Option.isSome_iff_exists, find?_isSome]
      exact ⟨p, hpl, by simp⟩
    have hf : f.serial = p.serial := by simpa using find?_some hfind
    have hne : f ≠ p := fun heq => hother (by rw [h.holds.find, hfind, heq])
    have hfl : f ∈ l := mem_of_find?_eq_some hfind
    have hids : f.id ≠ p.id := fun heq => hne (inj_on_of_nodup_map h.ids hfl hpl heq)
    obtain ⟨front, back, hl, herase, -⟩ := split_of_find (hf ▸ hfind)
    have hgone : ∀ q ∈ (c.pending.remove p.serial).toList, q.id ≠ f.id := by
      intro q hq heq
      have hq := (h.holds.remove p.serial).perm.mem_iff.mp hq
      rw [← hf, herase] at hq
      have hnodup := h.ids
      rw [hl, map_append, map_cons, nodup_middle, nodup_cons, ← map_append] at hnodup
      exact hnodup.1 (heq ▸ mem_map_of_mem hq)
    have hinvoked := honce.left f.id (h.fresh f hfl) hgone
    rcases mem_append.mp hinvoked with hid | hid
    · have hanswering := h.waiting f hfl hid
      rw [hstack] at hanswering
      simp at hanswering
    · exact hids (mem_singleton.mp hid)

/-- Every callback is invoked once, and none of the entries is used after it was removed, if and
only if all steps are proper. -/
theorem fires_once_iff (inputs : List Input) :
    machine.Runs (fun _ _ c _ => c.Once) {} inputs ↔ machine.Along Proper {} inputs := by
  have hstart : Inv {} [] := by
    refine ⟨.empty 10, nodup_nil, ?_, ?_, nodup_nil, ?_, ?_, ?_, ?_⟩
    all_goals intro i hi
    · exact absurd hi not_mem_nil
    · exact absurd hi not_mem_nil
    · exact absurd hi not_mem_nil
    · exact absurd hi not_mem_nil
    · exact absurd hi (Nat.not_lt_zero _)
    · exact absurd hi not_mem_nil
  have hnext : ∀ (c : WvDBusConn) i c' o, machine.step c i = some (c', o) → c.step i = some c' := by
    intro c i c' o hstep
    obtain ⟨r, hr, heq⟩ := Option.map_eq_some_iff.mp hstep
    cases heq
    exact hr
  constructor
  · intro hruns
    have hcond : ∀ (c : WvDBusConn) i c' o, (∃ l, c.Inv l) → machine.step c i = some (c', o) →
        c'.Once → c.Proper i := by
      rintro c i c' o ⟨l, h⟩ hstep honce
      exact h.proper_of_once (hnext c i c' o hstep) honce
    refine Lib.Machine.along_of_runs hcond ?_ ⟨[], hstart⟩ hruns
    rintro c i c' o ⟨l, h⟩ hi hstep
    obtain ⟨r, hr, hinv⟩ := h.step hi
    cases hr.symm.trans (hnext c i c' o hstep)
    exact hinv
  · intro halong
    have hstep : ∀ (c : WvDBusConn) i, (∃ l, c.Inv l) → c.Proper i →
        ∃ c' o, machine.step c i = some (c', o) ∧ c'.Once ∧ ∃ l, c'.Inv l := by
      rintro c i ⟨l, h⟩ hi
      obtain ⟨c', hstep, l', h'⟩ := h.step hi
      exact ⟨c', (), by simp [machine, hstep], h'.once, l', h'⟩
    exact Lib.Machine.runs_of_along hstep ⟨[], hstart⟩ halong

/-- The callback of a reply cancels the message that is being answered. -/
theorem fires_twice : ¬ ∀ inputs, machine.Runs (fun _ _ c _ => c.Once) {} inputs := by
  intro h
  obtain ⟨_, _, hadd, -, _, _, hreply, -, _, _, hcancel, honce, -⟩ :=
    h [.add 1001 5, .reply 1001, .cancel 1001]
  cases hadd
  cases hreply
  cases hcancel
  exact absurd honce.nodup (by decide)

end WvDBusConn

end WvStreams
