import WvStreams.Lib.Machine
import Mathlib.Data.List.Nodup

/-!
# The receivers of log messages

The receivers that have registered themselves are in a list that is there only as long as one of
them is, and they are counted. The default receiver is one of them, and is not counted. A fork
empties the list under the receivers' feet, so that the count is right as long as no forgotten
receiver is destroyed, and the list as long as it goes away with the default receiver
(`registry_coherent`).
-/

namespace WvStreams

open Lib List

inductive LogText where
  | message
  | recursion_msg
  deriving DecidableEq

/-- The static members of `WvLog`. A receiver is the place of an object. -/
structure WvLog where
  receivers : Option (List Nat) := none
  num_receivers : Int := 0
  num_logs : Int := 0
  default_receiver : Option Nat := none
  recursion_count : Nat := 0
  /-- The callback for forks has been added. -/
  init : Bool := false
  /-- The place of the next object. -/
  next : Nat := 0
  /-- The receivers that were created by others, and not destroyed. -/
  created : List Nat := []
  deriving DecidableEq

namespace WvLog

def newReceiver (s : WvLog) : WvLog × Nat :=
  ({ s with
      init := true
      receivers := some (s.receivers.getD [] ++ [s.next])
      num_receivers := s.num_receivers + 1
      next := s.next + 1 }, s.next)

def deleteReceiver (s : WvLog) (rcv : Nat) : Option WvLog :=
  s.receivers.map fun list =>
    let list := list.filter (· ≠ rcv)
    { s with
      receivers := if list = [] then none else some list
      num_receivers := s.num_receivers - 1 }

/-- Deleting default does not really reduce. -/
def deleteDefault (s : WvLog) : Option WvLog :=
  match s.default_receiver with
  | none => some s
  | some rcv => (deleteReceiver { s with num_receivers := s.num_receivers + 1 } rcv).map fun s =>
    { s with default_receiver := none }

def newLog (s : WvLog) : WvLog := { s with num_logs := s.num_logs + 1 }

def deleteLog (s : WvLog) : Option WvLog :=
  let s : WvLog := { s with num_logs := s.num_logs - 1 }
  if s.num_logs = 0 then s.deleteDefault else some s

def recursion_max : Nat := 8

def logTo (s : WvLog) (list : List Nat) : List (Nat × LogText) :=
  if s.recursion_count < recursion_max then list.map fun rcv => (rcv, .message)
  else if s.recursion_count = recursion_max then list.map fun rcv => (rcv, .recursion_msg)
  else []

/-- `uwrite`, with receivers that write no messages themselves. -/
def uwrite (s : WvLog) : Option (WvLog × List (Nat × LogText)) :=
  let s : WvLog := { s with recursion_count := s.recursion_count + 1 }
  if s.num_receivers = 0 then
    match s.default_receiver with
    | some rcv => some ({ s with recursion_count := s.recursion_count - 1 }, s.logTo [rcv])
    | none =>
      -- nobody's listening
      let (s, rcv) := s.newReceiver
      let s : WvLog := { s with default_receiver := some rcv, num_receivers := s.num_receivers - 1 }
      some ({ s with recursion_count := s.recursion_count - 1 }, s.logTo [rcv])
  else
    s.deleteDefault.bind fun s =>
      s.receivers.map fun list =>
        ({ s with recursion_count := s.recursion_count - 1 }, s.logTo list)

def cleanupOnFork (s : WvLog) : Option WvLog :=
  let s : WvLog := { s with receivers := s.receivers.map fun _ => [] }
  (s.default_receiver.elim (some s) s.deleteReceiver).map fun s =>
    { s with default_receiver := none, num_receivers := 0 }

inductive Call where
  | newReceiver
  | deleteReceiver (rcv : Nat)
  | newLog
  | deleteLog
  | write
  | fork
  deriving DecidableEq

def machine : Machine WvLog Call (List (Nat × LogText)) where
  step s
    | .newReceiver =>
      let (s, rcv) := s.newReceiver
      some ({ s with created := rcv :: s.created }, [])
    | .deleteReceiver rcv => (s.deleteReceiver rcv).map fun s =>
      ({ s with created := s.created.filter (· ≠ rcv) }, [])
    | .newLog => some (s.newLog, [])
    | .deleteLog => s.deleteLog.map fun s => (s, [])
    | .write => s.uwrite
    | .fork => (if s.init then s.cleanupOnFork else some s).map fun s => (s, [])

/-- Only objects that are there are destroyed or written to. -/
def Legal (s : WvLog) : Call → Prop
  | .deleteReceiver rcv => rcv ∈ s.created
  | .deleteLog => 0 < s.num_logs
  | .write => 0 < s.num_logs
  | _ => True

def registered (s : WvLog) : List Nat := s.receivers.getD []

def others (s : WvLog) : List Nat := s.registered.filter fun rcv => some rcv ≠ s.default_receiver

/-- The registry is as it should be, and a message reaches the receivers that count. -/
structure Coherent (s : WvLog) (call : Call) (s' : WvLog) (out : List (Nat × LogText)) : Prop where
  count : s'.num_receivers = s'.others.length
  list : s'.receivers = none ↔ s'.registered = []
  reached : call = .write → s.others ≠ [] → s'.registered = s.others ∧ out.Nodup ∧
      ∀ rcv text, (rcv, text) ∈ out ↔ rcv ∈ s.others ∧ text = .message

/-- The list goes away with a fork, and only receivers that are in it are destroyed. -/
def Sound (s : WvLog) : Call → Prop
  | .deleteReceiver rcv => rcv ∈ s.registered
  | .fork => s.others = [] ∨ s.default_receiver ≠ none
  | _ => True

structure Inv (s : WvLog) : Prop where
  count : s.num_receivers = s.others.length
  list : s.receivers ≠ some []
  nodup : s.registered.Nodup
  below : ∀ rcv ∈ s.registered, rcv < s.next
  created : ∀ rcv ∈ s.created, rcv < s.next
  default : ∀ rcv ∈ s.default_receiver, rcv ∈ s.registered ∧ rcv ∉ s.created
  started : s.registered ≠ [] → s.init = true

variable {s : WvLog}

theorem Inv.counts (hs : Inv s) (num_logs : Int) (recursion_count : Nat) :
    Inv { s with num_logs := num_logs, recursion_count := recursion_count } :=
  ⟨hs.count, hs.list, hs.nodup, hs.below, hs.created, hs.default, hs.started⟩

def listOf (list : List Nat) : Option (List Nat) := if list = [] then none else some list

@[simp] theorem getD_listOf (list : List Nat) : (listOf list).getD [] = list := by
  rw [listOf]
  split
  · rename_i hnil
    rw [hnil]
    rfl
  · rfl

theorem listOf_ne (list : List Nat) : listOf list ≠ some [] := by
  rw [listOf]
  split
  · exact Option.some_ne_none [] |>.symm
  · rename_i hne
    exact fun h => hne (Option.some.inj h)

theorem others_of_none (h : s.default_receiver = none) : s.others = s.registered := by
  simp [others, h]

theorem Inv.receivers_eq (hs : Inv s) : s.receivers = listOf s.registered := by
  have hlist := hs.list
  rw [registered, listOf]
  cases hr : s.receivers with
  | none => rfl
  | some list =>
    rw [hr] at hlist
    exact (if_neg fun hnil => hlist (congrArg some hnil)).symm

theorem deleteReceiver_eq {rcv : Nat} (h : rcv ∈ s.registered) :
    s.deleteReceiver rcv = some { s with
      receivers := listOf (s.registered.filter (· ≠ rcv))
      num_receivers := s.num_receivers - 1 } := by
  cases hr : s.receivers with
  | none =>
    rw [registered, hr] at h
    cases h
  | some list =>
    rw [deleteReceiver, registered, hr]
    rfl

theorem deleteDefault_eq (hs : Inv s) :
    s.deleteDefault = some { s with receivers := listOf s.others, default_receiver := none } := by
  cases hd : s.default_receiver with
  | none =>
    have hsame : s = { s with receivers := listOf s.others, default_receiver := none } := by
      rw [others_of_none hd, ← hs.receivers_eq, ← hd]
    rw [deleteDefault, hd]
    exact congrArg some hsame
  | some rcv =>
    have hothers : s.others = s.registered.filter (· ≠ rcv) := by
      simp [others, hd]
    have hdelete := deleteReceiver_eq (s := { s with num_receivers := s.num_receivers + 1 })
      (hs.default rcv hd).1
    rw [hd, Int.add_sub_cancel] at hdelete
    rw [deleteDefault, hd, hothers]
    dsimp only
    rw [hdelete]
    rfl

theorem Inv.deleteDefault (hs : Inv s) :
    Inv { s with receivers := listOf s.others, default_receiver := none } := by
  have hregistered : registered { s with receivers := listOf s.others, default_receiver := none } =
      s.others := getD_listOf s.others
  have hothers := others_of_none (s := { s with
    receivers := listOf s.others, default_receiver := none }) rfl
  rw [hregistered] at hothers
  have hsub : ∀ rcv ∈ s.others, rcv ∈ s.registered := fun rcv h => (mem_filter.mp h).1
  refine ⟨?_, listOf_ne _, ?_, ?_, hs.created, ?_, ?_⟩
  · rw [hothers]
    exact hs.count
  · rw [hregistered]
    exact hs.nodup.filter _
  · rw [hregistered]
    exact fun rcv h => hs.below rcv (hsub rcv h)
  · rintro _ ⟨⟩
  · rw [hregistered]
    intro hne
    obtain ⟨rcv, hrcv⟩ := exists_mem_of_ne_nil _ hne
    exact hs.started (ne_nil_of_mem (hsub rcv hrcv))

theorem Inv.newReceiver (hs : Inv s) :
    Inv { s.newReceiver.1 with created := s.next :: s.created } := by
  have hregistered : registered { s.newReceiver.1 with created := s.next :: s.created } =
      s.registered ++ [s.next] := rfl
  have hfresh : s.next ∉ s.registered := fun h => Nat.lt_irrefl _ (hs.below _ h)
  have hnot : some s.next ≠ s.default_receiver := by
    intro h
    exact hfresh (hs.default _ h.symm).1
  have hothers : others { s.newReceiver.1 with created := s.next :: s.created } =
      s.others ++ [s.next] := by
    have hlast : [s.next].filter (fun rcv => some rcv ≠ s.default_receiver) = [s.next] :=
      filter_eq_self.mpr (by simpa using hnot)
    rw [others, hregistered, filter_append]
    exact congrArg (s.others ++ ·) hlast
  refine ⟨?_, ?_, ?_, ?_, ?_, ?_, fun _ => rfl⟩
  · rw [hothers, length_append]
    show s.num_receivers + 1 = _
    rw [hs.count]
    rfl
  · exact fun h => append_ne_nil_of_right_ne_nil _ (cons_ne_nil _ _) (Option.some.inj h)
  · rw [hregistered]
    exact nodup_append.mpr ⟨hs.nodup, nodup_singleton _, fun a ha b hb => by
      rw [mem_singleton.mp hb]
      exact fun h => hfresh (h ▸ ha)⟩
  · rw [hregistered]
    exact forall_mem_append.mpr ⟨fun rcv h => Nat.lt_succ_of_lt (hs.below rcv h),
      forall_mem_singleton.mpr (Nat.lt_succ_self _)⟩
  · exact forall_mem_cons.mpr
      ⟨Nat.lt_succ_self _, fun rcv h => Nat.lt_succ_of_lt (hs.created rcv h)⟩
  · intro rcv hrcv
    obtain ⟨hmem, hcreated⟩ := hs.default rcv hrcv
    refine ⟨mem_append_left _ hmem, fun h => ?_⟩
    rcases mem_cons.mp h with rfl | h
    · exact hfresh hmem
    · exact hcreated h

theorem Inv.deleteReceiver (hs : Inv s) {rcv : Nat} (hmem : rcv ∈ s.registered)
    (hcreated : rcv ∈ s.created) : Inv { s with
      receivers := listOf (s.registered.filter (· ≠ rcv))
      num_receivers := s.num_receivers - 1
      created := s.created.filter (· ≠ rcv) } := by
  generalize hs' : ({ s with
    receivers := listOf (s.registered.filter (· ≠ rcv))
    num_receivers := s.num_receivers - 1
    created := s.created.filter (· ≠ rcv) } : WvLog) = s'
  have hregistered : s'.registered = s.registered.filter (· ≠ rcv) := by
    rw [← hs']
    exact getD_listOf _
  have hdefault : s'.default_receiver = s.default_receiver := by rw [← hs']
  have hnot : some rcv ≠ s.default_receiver := fun h => (hs.default rcv h.symm).2 hcreated
  have hothers : s'.others = s.others.filter (· ≠ rcv) := by
    rw [others, others, hregistered, hdefault, filter_filter, filter_filter]
    exact filter_congr fun a _ => Bool.and_comm _ _
  have hrcv : rcv ∈ s.others := mem_filter.mpr ⟨hmem, by simpa using hnot⟩
  have hlen : (s.others.filter (· ≠ rcv)).length + 1 = s.others.length := by
    have hnodup : s.others.Nodup := hs.nodup.filter _
    have hpos := length_pos_of_mem hrcv
    have herase : s.others.erase rcv = s.others.filter (· ≠ rcv) := by
      rw [hnodup.erase_eq_filter]
      apply filter_congr
      intro a _
      by_cases ha : a = rcv <;> simp [ha]
    rw [← herase, length_erase_of_mem hrcv]
    omega
  refine ⟨?_, ?_, ?_, ?_, ?_, ?_, ?_⟩
  · rw [hothers, ← hs']
    have hcount := hs.count
    show s.num_receivers - 1 = _
    omega
  · rw [← hs']
    exact listOf_ne _
  · rw [hregistered]
    exact hs.nodup.filter _
  · rw [hregistered, ← hs']
    exact fun a ha => hs.below a (mem_filter.mp ha).1
  · rw [← hs']
    exact fun a ha => hs.created a (mem_filter.mp ha).1
  · rw [hdefault, hregistered]
    intro a ha
    obtain ⟨hmem', hnew⟩ := hs.default a ha
    refine ⟨mem_filter.mpr ⟨hmem', ?_⟩, ?_⟩
    · have hne : a ≠ rcv := by
        rintro rfl
        exact hnot ha.symm
      simpa using hne
    · rw [← hs']
      exact fun h => hnew (mem_filter.mp h).1
  · intro _
    rw [← hs']
    exact hs.started (ne_nil_of_mem hmem)

theorem Inv.empty (hs : Inv s) :
    Inv { s with receivers := none, default_receiver := none, num_receivers := 0 } where
  count := rfl
  list := nofun
  nodup := nodup_nil
  below := forall_mem_nil _
  created := hs.created
  default := nofun
  started := fun h => absurd rfl h

theorem cleanupOnFork_eq (hs : Inv s) (h : s.others = [] ∨ s.default_receiver ≠ none) :
    s.cleanupOnFork =
      some { s with receivers := none, default_receiver := none, num_receivers := 0 } := by
  rw [cleanupOnFork]
  cases hd : s.default_receiver with
  | none =>
    have hnone : s.receivers = none := by
      have hempty := h.resolve_right fun hne => hne hd
      rw [others_of_none hd] at hempty
      rw [hs.receivers_eq, hempty]
      rfl
    rw [hnone]
    rfl
  | some rcv =>
    -- the list goes away with the default receiver
    have hmem := (hs.default rcv hd).1
    cases hr : s.receivers with
    | none =>
      rw [registered, hr] at hmem
      cases hmem
    | some list => rfl

theorem logTo_message (h : s.recursion_count < recursion_max) {list : List Nat}
    (hlist : list.Nodup) : (s.logTo list).Nodup ∧
      ∀ rcv text, (rcv, text) ∈ s.logTo list ↔ rcv ∈ list ∧ text = .message := by
  rw [logTo, if_pos h]
  refine ⟨hlist.map fun a b hab => (Prod.mk.inj hab).1, fun rcv text => ?_⟩
  rw [mem_map]
  constructor
  · rintro ⟨a, ha, heq⟩
    obtain ⟨rfl, rfl⟩ := Prod.mk.inj heq
    exact ⟨ha, rfl⟩
  · rintro ⟨hmem, rfl⟩
    exact ⟨rcv, hmem, rfl⟩

theorem Inv.newDefault (hs : Inv s) (hzero : s.num_receivers = 0) (hd : s.default_receiver = none) :
    Inv { s.newReceiver.1 with
      default_receiver := some s.next
      num_receivers := s.newReceiver.1.num_receivers - 1 } := by
  have hnil : s.registered = [] := by
    have hcount := hs.count
    rw [hzero, others_of_none hd] at hcount
    exact eq_nil_of_length_eq_zero (by omega)
  have hregistered : registered { s.newReceiver.1 with
      default_receiver := some s.next
      num_receivers := s.newReceiver.1.num_receivers - 1 } = [s.next] := by
    show s.registered ++ [s.next] = [s.next]
    rw [hnil]
    rfl
  have hothers : others { s.newReceiver.1 with
      default_receiver := some s.next
      num_receivers := s.newReceiver.1.num_receivers - 1 } = [] := by
    rw [others, hregistered]
    simp
  refine ⟨?_, ?_, ?_, ?_, ?_, ?_, fun _ => rfl⟩
  · rw [hothers]
    show s.num_receivers + 1 - 1 = _
    rw [hzero]
    rfl
  · exact fun h => append_ne_nil_of_right_ne_nil _ (cons_ne_nil _ _) (Option.some.inj h)
  · rw [hregistered]
    exact nodup_singleton _
  · rw [hregistered]
    intro rcv hrcv
    rw [mem_singleton.mp hrcv]
    exact Nat.lt_succ_self _
  · exact fun rcv hrcv => Nat.lt_succ_of_lt (hs.created rcv hrcv)
  · rintro rcv ⟨⟩
    rw [hregistered]
    exact ⟨mem_singleton_self _, fun h => Nat.lt_irrefl _ (hs.created _ h)⟩

theorem Inv.coherent {s' : WvLog} (hs' : Inv s') {call : Call} {out : List (Nat × LogText)}
    (h : call = .write → s.others ≠ [] → s'.registered = s.others ∧ out.Nodup ∧
      ∀ rcv text, (rcv, text) ∈ out ↔ rcv ∈ s.others ∧ text = .message) :
    Coherent s call s' out where
  count := hs'.count
  list := by
    rw [hs'.receivers_eq, listOf]
    split
    · rename_i hnil
      exact iff_of_true rfl hnil
    · rename_i hne
      exact iff_of_false nofun hne
  reached := h

theorem uwrite_coherent (hs : Inv s) (hidle : s.recursion_count = 0) :
    ∃ s' out, s.uwrite = some (s', out) ∧ Coherent s .write s' out ∧ Inv s' ∧
      s'.recursion_count = 0 := by
  rw [uwrite]
  have hless : s.recursion_count + 1 < recursion_max := by
    rw [hidle]
    decide
  have hcount := hs.count
  by_cases hzero : s.num_receivers = 0
  · have hnone : s.others = [] := eq_nil_of_length_eq_zero (by omega)
    rw [if_pos hzero]
    cases hd : s.default_receiver with
    | some rcv =>
      have hsame : Inv { s with
          default_receiver := some rcv, recursion_count := s.recursion_count + 1 - 1 } := by
        rw [← hd]
        exact hs.counts s.num_logs _
      exact ⟨_, _, rfl, hsame.coherent fun _ hne => absurd hnone hne, hsame, hidle⟩
    | none =>
      have hnew := (hs.newDefault hzero hd).counts s.num_logs (s.recursion_count + 1 - 1)
      exact ⟨_, _, rfl, hnew.coherent fun _ hne => absurd hnone hne, hnew, hidle⟩
  · have hne : s.others ≠ [] := by
      intro hnil
      rw [hnil] at hcount
      exact hzero hcount
    have hlist : listOf s.others = some s.others := if_neg hne
    have hdelete := deleteDefault_eq (hs.counts s.num_logs (s.recursion_count + 1))
    change _ = some { s with
      receivers := listOf s.others
      default_receiver := none
      recursion_count := s.recursion_count + 1 } at hdelete
    rw [hlist] at hdelete
    have hkept : Inv { s with receivers := some s.others, default_receiver := none } := by
      rw [← hlist]
      exact hs.deleteDefault
    have hkept := hkept.counts s.num_logs (s.recursion_count + 1 - 1)
    rw [if_neg hzero, hdelete]
    refine ⟨_, _, rfl, hkept.coherent fun _ _ => ⟨rfl, ?_⟩, hkept, hidle⟩
    exact logTo_message hless (hs.nodup.filter _)

theorem step_coherent {call : Call} (hs : Inv s ∧ s.recursion_count = 0)
    (h : s.Legal call ∧ s.Sound call) :
    ∃ s' out, machine.step s call = some (s', out) ∧ Coherent s call s' out ∧
      Inv s' ∧ s'.recursion_count = 0 := by
  obtain ⟨hs, hidle⟩ := hs
  obtain ⟨hlegal, hsound⟩ := h
  cases call with
  | newReceiver =>
    exact ⟨_, _, rfl, hs.newReceiver.coherent nofun, hs.newReceiver, hidle⟩
  | deleteReceiver rcv =>
    have hkept := hs.deleteReceiver hsound hlegal
    refine ⟨_, [], ?_, hkept.coherent nofun, hkept, hidle⟩
    show (s.deleteReceiver rcv).map _ = _
    rw [deleteReceiver_eq hsound]
    rfl
  | newLog =>
    have hkept := hs.counts (s.num_logs + 1) s.recursion_count
    exact ⟨_, _, rfl, hkept.coherent nofun, hkept, hidle⟩
  | deleteLog =>
    have hless := hs.counts (s.num_logs - 1) s.recursion_count
    show ∃ s' out, s.deleteLog.map _ = _ ∧ _
    rw [deleteLog]
    split
    · have hkept := hless.deleteDefault
      rw [deleteDefault_eq hless]
      exact ⟨_, _, rfl, hkept.coherent nofun, hkept, hidle⟩
    · exact ⟨_, _, rfl, hless.coherent nofun, hless, hidle⟩
  | write => exact uwrite_coherent hs hidle
  | fork =>
    show ∃ s' out, (if s.init = true then s.cleanupOnFork else some s).map _ = _ ∧ _
    split
    · rw [cleanupOnFork_eq hs hsound]
      exact ⟨_, _, rfl, hs.empty.coherent nofun, hs.empty, hidle⟩
    · exact ⟨_, _, rfl, hs.coherent nofun, hs, hidle⟩

theorem inv_start : Inv {} where
  count := rfl
  list := nofun
  nodup := nodup_nil
  below := forall_mem_nil _
  created := forall_mem_nil _
  default := nofun
  started := fun h => absurd rfl h

/-- No assertion fails and the registry is coherent in every run in which no fork leaves an empty
list behind, and no receiver is destroyed that a fork has taken from the list. -/
theorem registry_coherent {calls : List Call}
    (h : machine.Along (fun s call => s.Legal call ∧ s.Sound call) {} calls) :
    machine.Runs Coherent {} calls :=
  Machine.runs_of_along (fun _ _ hs hcall => step_coherent hs hcall) ⟨inv_start, rfl⟩ h

instance (s : WvLog) : (call : Call) → Decidable (s.Legal call ∧ s.Sound call)
  | .newReceiver => inferInstanceAs (Decidable (True ∧ True))
  | .deleteReceiver rcv => inferInstanceAs (Decidable (rcv ∈ s.created ∧ rcv ∈ s.registered))
  | .newLog => inferInstanceAs (Decidable (True ∧ True))
  | .deleteLog => inferInstanceAs (Decidable (0 < s.num_logs ∧ True))
  | .write => inferInstanceAs (Decidable (0 < s.num_logs ∧ True))
  | .fork => inferInstanceAs (Decidable (True ∧ (s.others = [] ∨ s.default_receiver ≠ none)))

/-- The second receiver is destroyed in the parent's list, and the third is made by the child. -/
theorem registry_coherent_fork :
    machine.Runs Coherent {} [.newLog, .newReceiver, .write, .deleteReceiver 0, .write, .newReceiver,
      .fork, .newReceiver, .newReceiver, .write, .deleteReceiver 3, .deleteLog] :=
  registry_coherent (by decide +kernel)

/-- A fork leaves the list behind without its receiver. -/
theorem registry_fork_fails : ¬ ∀ calls : List Call,
    machine.Along (fun s call => s.Legal call) {} calls → machine.Runs Coherent {} calls := by
  intro h
  have hlegal : machine.Along (fun s call => s.Legal call) {} [.newReceiver, .fork] :=
    ⟨trivial, fun _ _ _ => ⟨trivial, fun _ _ _ => trivial⟩⟩
  obtain ⟨s, out, hnew, -, s', out', hfork, hcoherent, -⟩ := h _ hlegal
  cases hnew
  cases hfork
  exact absurd (hcoherent.list.mpr rfl) (by decide)

end WvLog

end WvStreams
