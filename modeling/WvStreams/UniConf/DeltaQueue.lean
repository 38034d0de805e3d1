import WvStreams.UniConf.HashTree
import WvStreams.Lib.Stop
import Mathlib.Order.Monotone.Basic

/-!
# The queue of announcements

What `UniConfGen` announces while it is held goes to a queue. The outermost `unhold_delta` flushes
it, and so does `flush_delta`; the callbacks that are notified may call all of this again. Every
announcement is dispatched once and in order, none while a hold is active but by an explicit
`flush_delta`, and nothing is left when the hold is over (`run_safe`). A run in which the callbacks
come to an end returns (`run_returns`).
-/

namespace WvStreams

open Lib List

namespace DeltaQueue

inductive Call where
  | hold_delta
  | unhold_delta
  | flush_delta
  | delta (d : Delta)

/-- How many holds there are to end after a call. -/
def Call.depth (depth : Nat) : Call → Nat
  | .hold_delta => depth + 1
  | .unhold_delta => depth - 1
  | .flush_delta => depth
  | .delta _ => depth

/-- The calls end as many holds as there are to end, and the ones that they begin. -/
def Nested (depth : Nat) : List Call → Prop
  | [] => depth = 0
  | .unhold_delta :: calls => 0 < depth ∧ Nested (depth - 1) calls
  | c :: calls => Nested (c.depth depth) calls

structure Block where
  calls : List Call
  nested : Nested 0 calls

/-- The callbacks in the order of their cookies, and what is called from inside them when a
callback is called after so many others. -/
structure Callbacks (κ : Type) where
  cblist : List κ
  nodup : cblist.Nodup
  react : Nat → Block

/-- An announcement that goes to the callbacks: how many holds are active then, and whether it is
an explicit `flush_delta` that took it from the queue. -/
structure Start where
  delta : Delta
  held : Nat
  explicit : Bool

/-- The generator, with a record of what happened: how many holds are active, what was announced,
what went to the callbacks, which callbacks were called, and what each `unhold_delta` left. -/
structure State (κ : Type) where
  hold_nesting : Nat := 0
  deltas : List Delta := []
  held : Nat := 0
  issued : List Delta := []
  started : List Start := []
  called : List (κ × Delta) := []
  unheld : List (Nat × List Delta) := []

/-! ## The functions -/

section Functions

variable {κ : Type} (env : Callbacks κ) (n : Nat)
  (notify : κ → Delta → State κ → Except (Stop (State κ)) (State κ))

def dispatch_delta (explicit : Bool) (d : Delta) (s : State κ) :
    Except (Stop (State κ)) (State κ) :=
  sequence (fun c => notify c d) env.cblist
    { s with started := s.started ++ [⟨d, s.held, explicit⟩] }

/-- One round of the loop: `rewind`, `next` and `xunlink`. -/
def flushBody (explicit : Bool) (s : State κ) : Except (Stop (State κ)) (State κ ⊕ State κ) :=
  match s.deltas with
  | [] => .ok (.inr s)
  | d :: deltas => dispatch_delta env notify explicit d { s with deltas := deltas } >>= fun s =>
    .ok (.inl s)

def flush_delta (explicit : Bool) (s : State κ) : Except (Stop (State κ)) (State κ) :=
  iterate id (flushBody env notify explicit) n s

def hold_delta (s : State κ) : State κ := { s with hold_nesting := s.hold_nesting + 1 }

def unhold_delta (s : State κ) : Except (Stop (State κ)) (State κ) :=
  if 0 < s.hold_nesting then
    (if s.hold_nesting = 1 then flush_delta env n notify false s else .ok s) >>= fun s =>
      .ok { s with hold_nesting := s.hold_nesting - 1 }
  else .error .failed

def delta (d : Delta) (s : State κ) : Except (Stop (State κ)) (State κ) :=
  if s.hold_nesting = 0 then dispatch_delta env notify false d s
  else
    let s := hold_delta s
    unhold_delta env n notify { s with deltas := s.deltas ++ [d] }

def call : Call → State κ → Except (Stop (State κ)) (State κ)
  | .hold_delta, s => .ok (hold_delta { s with held := s.held + 1 })
  | .unhold_delta, s => unhold_delta env n notify { s with held := s.held - 1 } >>= fun s =>
    .ok { s with unheld := s.unheld ++ [(s.hold_nesting, s.deltas)] }
  | .flush_delta, s => flush_delta env n notify true s
  | .delta d, s => delta env n notify d { s with issued := s.issued ++ [d] }

end Functions

section Runs

variable {κ : Type} (env : Callbacks κ)

/-- A callback is called, and calls the functions again. It is watched up to some depth. -/
def notify : Nat → κ → Delta → State κ → Except (Stop (State κ)) (State κ)
  | 0, _, _, s => .error (.running s)
  | n + 1, c, d, s => sequence (call env n (notify n)) (env.react s.called.length).calls
    { s with called := s.called ++ [(c, d)] }

def run (n : Nat) (calls : List Call) : Except (Stop (State κ)) (State κ) :=
  sequence (call env n (notify env n)) calls {}

end Runs

/-! ## The invariant -/

variable {κ : Type}

def starts (s : State κ) : List Delta := s.started.map Start.delta

/-- At every moment nothing is lost or out of order. `busy` calls of `unhold_delta` have begun and
not yet counted down. -/
structure Good (busy : Nat) (s : State κ) : Prop where
  nesting_eq : s.hold_nesting = s.held + busy
  issued_eq : s.issued = starts s ++ s.deltas
  deltas_eq : s.hold_nesting = 0 → s.deltas = []
  started_held : ∀ e ∈ s.started, e.held = 0 ∨ e.explicit = true
  unheld_empty : ∀ u ∈ s.unheld, u.1 = 0 → u.2 = []

theorem good_init : Good 0 ({} : State κ) where
  nesting_eq := rfl
  issued_eq := rfl
  deltas_eq := fun _ => rfl
  started_held := forall_mem_nil _
  unheld_empty := forall_mem_nil _

/-- Whatever has happened: all that was announced was dispatched, in order, or is in the queue. -/
structure Kept (s : State κ) : Prop where
  issued_eq : s.issued = s.started.map Start.delta ++ s.deltas
  started_held : ∀ e ∈ s.started, e.held = 0 ∨ e.explicit = true
  unheld_empty : ∀ u ∈ s.unheld, u.1 = 0 → u.2 = []

/-! ## How long it takes -/

def total (env : Callbacks κ) (n : Nat) : Nat :=
  ((List.range n).map fun i => (env.react i).calls.length).sum

/-- The record grows, by `k` calls and those that callbacks make. -/
structure Growth (env : Callbacks κ) (k : Nat) (s s' : State κ) : Prop where
  called_le : s.called.length ≤ s'.called.length
  started_le : s.started.length ≤ s'.started.length
  issued_le : s'.issued.length + total env s.called.length ≤
    s.issued.length + k + total env s'.called.length

/-- From some call on the callbacks call nothing. -/
def Quiet (env : Callbacks κ) (N : Nat) : Prop := ∀ i ≥ N, (env.react i).calls = []

/-- There is room for `k` calls if no more than `C` announcements are made, and for the depth to
which the callbacks are called inside each other. -/
structure Room (env : Callbacks κ) (C N n k : Nat) (s : State κ) : Prop where
  fits : s.issued.length + k + total env N ≤ C + total env s.called.length
  deep : C + 1 + (N - s.called.length) ≤ n

variable {env : Callbacks κ} {k l : Nat} {s s' s'' : State κ}

theorem total_succ (env : Callbacks κ) (n : Nat) :
    total env (n + 1) = total env n + (env.react n).calls.length := by
  rw [total, total, range_succ, map_append, sum_append]
  rfl

theorem Growth.refl (env : Callbacks κ) (s : State κ) : Growth env 0 s s where
  called_le := Nat.le_refl _
  started_le := Nat.le_refl _
  issued_le := Nat.le_refl _

theorem Growth.trans (h : Growth env k s s') (h' : Growth env l s' s'') :
    Growth env (k + l) s s'' where
  called_le := h.called_le.trans h'.called_le
  started_le := h.started_le.trans h'.started_le
  issued_le := by
    have hfirst := h.issued_le
    have hsecond := h'.issued_le
    omega

theorem Growth.mono (h : Growth env k s s') (hkl : k ≤ l) : Growth env l s s' where
  called_le := h.called_le
  started_le := h.started_le
  issued_le := h.issued_le.trans (Nat.add_le_add_right (Nat.add_le_add_left hkl _) _)

theorem Quiet.total_le {N : Nat} (h : Quiet env N) (n : Nat) : total env n ≤ total env N := by
  induction n with
  | zero => exact Nat.zero_le _
  | succ n ih =>
    by_cases hn : n < N
    · have hmono : Monotone (total env) :=
        monotone_nat_of_le_succ (fun n => (total_succ env n).symm ▸ Nat.le_add_right _ _)
      exact hmono hn
    · rw [total_succ, h n (Nat.le_of_not_lt hn)]
      exact ih

theorem Room.after {C N n : Nat} (h : Room env C N n (k + l) s) (hgrowth : Growth env k s s') :
    Room env C N n l s' where
  fits := by
    have hfits := h.fits
    have hissued := hgrowth.issued_le
    omega
  deep := by
    have hdeep := h.deep
    have hcalled := hgrowth.called_le
    omega

/-! ## What calls have done -/

variable [DecidableEq κ]

def callsOf (c : κ) (s : State κ) : List Delta :=
  (s.called.filter fun p => p.1 = c).map Prod.snd

/-- The callbacks are called as often as there are announcements for them, and `extra` times
more. -/
def Balance (env : Callbacks κ) (extra : κ → Delta → Nat) (s s' : State κ) : Prop :=
  ∀ c ∈ env.cblist, ∀ d, (callsOf c s').count d + (starts s).count d =
    (callsOf c s).count d + (starts s').count d + extra c d

/-- Some calls have been made. There were `depth` holds to end, and then there are `depth'`. -/
structure Ran (env : Callbacks κ) (busy depth depth' : Nat) (extra : κ → Delta → Nat) (k : Nat)
    (s s' : State κ) : Prop where
  good : Good busy s'
  held_eq : s'.held + depth = s.held + depth'
  balance : Balance env extra s s'
  growth : Growth env k s s'

def times (cs : List κ) (d : Delta) : κ → Delta → Nat := fun c d' =>
  if d' = d then cs.count c else 0

variable {busy depth depth' depth'' : Nat} {extra extra' : κ → Delta → Nat}

theorem Balance.trans (h : Balance env extra s s') (h' : Balance env extra' s' s'') :
    Balance env (fun c d => extra c d + extra' c d) s s'' := by
  intro c hc d
  have hfirst := h c hc d
  have hsecond := h' c hc d
  dsimp only
  omega

theorem times_nil (d : Delta) : times ([] : List κ) d = fun _ _ => 0 := by
  funext c d'
  exact ite_self 0

theorem times_cons (c : κ) (cs : List κ) (d : Delta) :
    times (c :: cs) d = fun c' d' => times [c] d c' d' + times cs d c' d' := by
  funext c' d'
  by_cases hd : d' = d
  · simp only [times, if_pos hd, count_cons, count_nil]
    omega
  · simp only [times, if_neg hd]

theorem Ran.refl (env : Callbacks κ) (depth : Nat) (h : Good busy s) :
    Ran env busy depth depth (fun _ _ => 0) 0 s s where
  good := h
  held_eq := rfl
  balance := fun _ _ _ => rfl
  growth := Growth.refl env s

theorem Ran.trans (h : Ran env busy depth depth' extra k s s')
    (h' : Ran env busy depth' depth'' extra' l s' s'') :
    Ran env busy depth depth'' (fun c d => extra c d + extra' c d) (k + l) s s'' where
  good := h'.good
  held_eq := by
    have hfirst := h.held_eq
    have hsecond := h'.held_eq
    omega
  balance := h.balance.trans h'.balance
  growth := h.growth.trans h'.growth

theorem Ran.of_record {t : State κ} (h : Ran env busy depth depth' extra k s s')
    (hheld : s.held = t.held) (hissued : s.issued = t.issued) (hstarted : s.started = t.started)
    (hcalled : s.called = t.called) : Ran env busy depth depth' extra k t s' where
  good := h.good
  held_eq := hheld ▸ h.held_eq
  balance := by
    have hstarts : starts t = starts s := congrArg (map Start.delta) hstarted.symm
    intro c hc d
    have hcalls : callsOf c t = callsOf c s := by rw [callsOf, callsOf, hcalled]
    rw [hstarts, hcalls]
    exact h.balance c hc d
  growth := ⟨hcalled ▸ h.growth.called_le, hstarted ▸ h.growth.started_le,
    hissued ▸ hcalled ▸ h.growth.issued_le⟩

/-! ## The functions keep the invariant -/

section Functions

/-- The computation has not returned, and `P` says that it would. -/
def Moment (P : Prop) (s : State κ) : Prop := (∃ busy, Good busy s) ∧ ¬ P

variable {P : Prop} {C N n : Nat}
  {notify : κ → Delta → State κ → Except (Stop (State κ)) (State κ)}

/-- A callback that is called keeps the invariant, whatever it calls. -/
def NotifyOk (env : Callbacks κ) (P : Prop) (C N n : Nat)
    (notify : κ → Delta → State κ → Except (Stop (State κ)) (State κ)) : Prop :=
  ∀ busy c d s, Good busy s → (P → Room env C N n 0 s) →
    Safe (Moment P) (Ran env busy 0 0 (times [c] d) 0 s) (notify c d s)

theorem notifyAll_spec (hnotify : NotifyOk env P C N n notify) (d : Delta) (cs : List κ)
    (h : Good busy s) (hroom : P → Room env C N n 0 s) :
    Safe (Moment P) (Ran env busy 0 0 (times cs d) 0 s) (sequence (fun c => notify c d) cs s) := by
  induction cs generalizing s with
  | nil =>
    rw [times_nil]
    exact Ran.refl env _ h
  | cons c cs ih =>
    refine (hnotify busy c d s h hroom).bind fun s' hfirst => ?_
    refine (ih hfirst.good (fun hP => (hroom hP).after hfirst.growth)).mono (fun _ => id) ?_
    intro s'' hrest
    rw [times_cons]
    exact hfirst.trans hrest

theorem dispatch_spec (hnotify : NotifyOk env P C N n notify) (d : Delta) (explicit : Bool)
    (h : Good busy { s with started := s.started ++ [⟨d, s.held, explicit⟩] })
    (hroom : P → Room env C N n 0 s) :
    Safe (Moment P) (fun s' => Ran env busy 0 0 (fun _ _ => 0) 0 s s' ∧
      s.started.length < s'.started.length) (dispatch_delta env notify explicit d s) := by
  refine (notifyAll_spec hnotify d env.cblist h (fun hP => ⟨(hroom hP).fits, (hroom hP).deep⟩)).mono
    (fun _ => id) ?_
  intro s' hran
  have hlonger : s.started.length < s'.started.length := by
    refine Nat.lt_of_lt_of_le ?_ hran.growth.started_le
    rw [length_append]
    exact Nat.lt_succ_self _
  refine ⟨⟨hran.good, hran.held_eq, ?_, ⟨hran.growth.called_le, hlonger.le,
    hran.growth.issued_le⟩⟩, hlonger⟩
  intro c hc d'
  have hbalance := hran.balance c hc d'
  have hstarts : starts { s with started := s.started ++ [⟨d, s.held, explicit⟩] } =
      starts s ++ [d] := map_append
  have honce : env.cblist.count c = 1 := count_eq_one_of_mem env.nodup hc
  rw [hstarts, count_append, count_singleton, times, honce] at hbalance
  have hcalls : callsOf c { s with started := s.started ++ [⟨d, s.held, explicit⟩] } =
      callsOf c s := rfl
  rw [hcalls] at hbalance
  show _ = _ + 0
  by_cases hd : d' = d
  · rw [hd, beq_self_eq_true, if_pos rfl, if_pos rfl] at hbalance
    rw [hd]
    omega
  · rw [beq_false_of_ne (Ne.symm hd), if_neg Bool.false_ne_true, if_neg hd] at hbalance
    omega

theorem flushLoop_spec (hnotify : NotifyOk env P C N n notify) (hquiet : P → Quiet env N)
    (explicit : Bool) (rounds : Nat) (h : Good busy s) (hexplicit : s.held = 0 ∨ explicit = true)
    (hroom : P → Room env C N n 0 s) (hrounds : P → C + 1 ≤ rounds + s.started.length) :
    Safe (Moment P) (fun s' => Ran env busy 0 0 (fun _ _ => 0) 0 s s' ∧ s'.deltas = [])
      (iterate id (flushBody env notify explicit) rounds s) := by
  induction rounds generalizing s with
  | zero =>
    refine ⟨⟨busy, h⟩, fun hP => ?_⟩
    have hissued : s.issued.length = s.started.length + s.deltas.length := by
      rw [h.issued_eq, length_append, starts, length_map]
    have htotal := (hquiet hP).total_le s.called.length
    have hfits := (hroom hP).fits
    have hrounds := hrounds hP
    omega
  | succ rounds ih =>
    rw [Lib.iterate, flushBody]
    match hdeltas : s.deltas with
    | [] => exact ⟨Ran.refl env _ h, hdeltas⟩
    | d :: deltas =>
      have hnesting : s.hold_nesting ≠ 0 := fun hzero => by
        rw [h.deltas_eq hzero] at hdeltas
        contradiction
      have hstart : Good busy { s with
          deltas := deltas, started := s.started ++ [⟨d, s.held, explicit⟩] } :=
        { nesting_eq := h.nesting_eq
          issued_eq := by
            rw [h.issued_eq, hdeltas]
            simp [starts]
          deltas_eq := fun hzero => absurd hzero hnesting
          started_held := fun e he => (mem_append.mp he).elim (h.started_held e)
            (fun he => mem_singleton.mp he ▸ hexplicit)
          unheld_empty := h.unheld_empty }
      have hround : Safe (Moment P) (Sum.elim (fun s' => Ran env busy 0 0 (fun _ _ => 0) 0 s s' ∧
          s.started.length < s'.started.length) (fun _ => False))
          (dispatch_delta env notify explicit d { s with deltas := deltas } >>= fun s =>
            .ok (.inl s) : Except (Stop (State κ)) (State κ ⊕ State κ)) := by
        refine (dispatch_spec (s := { s with deltas := deltas }) hnotify d explicit hstart
          (fun hP => ⟨(hroom hP).fits, (hroom hP).deep⟩)).bind fun s' hs' => ?_
        exact ⟨hs'.1.of_record rfl rfl rfl rfl, hs'.2⟩
      refine hround.bind fun r hr => ?_
      match r, hr with
      | .inl s', ⟨hran, hlonger⟩ =>
        have hheld : s'.held = s.held := hran.held_eq
        refine (ih hran.good (hheld ▸ hexplicit) (fun hP => (hroom hP).after hran.growth)
          (fun hP => ?_)).mono (fun _ => id) (fun s'' hrest => ⟨hran.trans hrest.1, hrest.2⟩)
        have hrounds := hrounds hP
        omega

theorem flush_spec (hnotify : NotifyOk env P C N n notify) (hquiet : P → Quiet env N)
    (explicit : Bool) (h : Good busy s) (hexplicit : s.held = 0 ∨ explicit = true)
    (hroom : P → Room env C N n 0 s) :
    Safe (Moment P) (fun s' => Ran env busy 0 0 (fun _ _ => 0) 0 s s' ∧ s'.deltas = [])
      (flush_delta env n notify explicit s) := by
  refine flushLoop_spec hnotify hquiet explicit n h hexplicit hroom (fun hP => ?_)
  have hdeep := (hroom hP).deep
  omega

theorem unhold_spec (hnotify : NotifyOk env P C N n notify) (hquiet : P → Quiet env N)
    (h : Good (busy + 1) s) (hroom : P → Room env C N n 0 s) :
    Safe (Moment P) (Ran env busy 0 0 (fun _ _ => 0) 0 s) (unhold_delta env n notify s) := by
  have hnesting := h.nesting_eq
  have hdone : ∀ s', Ran env (busy + 1) 0 0 (fun _ _ => 0) 0 s s' →
      (s'.hold_nesting = 1 → s'.deltas = []) →
      Ran env busy 0 0 (fun _ _ => 0) 0 s { s' with hold_nesting := s'.hold_nesting - 1 } := by
    intro s' hran hempty
    have hnesting' := hran.good.nesting_eq
    exact
      { good :=
          { nesting_eq := by
              show s'.hold_nesting - 1 = s'.held + busy
              omega
            issued_eq := hran.good.issued_eq
            deltas_eq := fun hzero => hempty (by
              have hzero : s'.hold_nesting - 1 = 0 := hzero
              omega)
            started_held := hran.good.started_held
            unheld_empty := hran.good.unheld_empty }
        held_eq := hran.held_eq
        balance := hran.balance
        growth := ⟨hran.growth.called_le, hran.growth.started_le, hran.growth.issued_le⟩ }
  rw [unhold_delta, if_pos (by omega)]
  by_cases hone : s.hold_nesting = 1
  · rw [if_pos hone]
    -- the outermost one: no other hold is active
    refine (flush_spec hnotify hquiet false h (.inl (by omega)) hroom).bind fun s' hs' => ?_
    exact hdone s' hs'.1 (fun _ => hs'.2)
  · rw [if_neg hone]
    exact hdone s (Ran.refl env _ h) (fun hs => absurd hs hone)

theorem delta_spec (hnotify : NotifyOk env P C N n notify) (hquiet : P → Quiet env N) (d : Delta)
    (h : Good busy s) (hroom : P → Room env C N n 1 s) :
    Safe (Moment P) (Ran env busy 0 0 (fun _ _ => 0) 1 s)
      (delta env n notify d { s with issued := s.issued ++ [d] }) := by
  have hissued : Growth env 1 s { s with issued := s.issued ++ [d] } :=
    ⟨Nat.le_refl _, Nat.le_refl _, by simp⟩
  have hroom' := fun hP => Room.after (l := 0) (hroom hP) hissued
  have hdone : ∀ s', Ran env busy 0 0 (fun _ _ => 0) 0 { s with issued := s.issued ++ [d] } s' →
      Ran env busy 0 0 (fun _ _ => 0) 1 s s' := fun s' hran =>
    ⟨hran.good, hran.held_eq, hran.balance, hissued.trans hran.growth⟩
  rw [delta]
  by_cases hzero : s.hold_nesting = 0
  · rw [if_pos hzero]
    have hheld : s.held = 0 := by
      have hnesting := h.nesting_eq
      omega
    refine (dispatch_spec hnotify d false ?_ hroom').mono (fun _ => id) (fun s' hs' => hdone s' hs'.1)
    exact
      { nesting_eq := h.nesting_eq
        issued_eq := by
          have hempty := h.deltas_eq hzero
          have hissued := h.issued_eq
          simp only [starts, hempty, append_nil] at hissued ⊢
          rw [hissued, map_append]
          rfl
        deltas_eq := h.deltas_eq
        started_held := fun e he => (mem_append.mp he).elim (h.started_held e)
          (fun he => mem_singleton.mp he ▸ .inl hheld)
        unheld_empty := h.unheld_empty }
  · rw [if_neg hzero]
    have hqueued : Good (busy + 1) { s with
        hold_nesting := s.hold_nesting + 1, deltas := s.deltas ++ [d], issued := s.issued ++ [d] } :=
      { nesting_eq := by
          show s.hold_nesting + 1 = s.held + (busy + 1)
          rw [h.nesting_eq]
          omega
        issued_eq := by
          show s.issued ++ [d] = starts s ++ (s.deltas ++ [d])
          rw [h.issued_eq, append_assoc]
        deltas_eq := fun hsucc => absurd hsucc (Nat.succ_ne_zero _)
        started_held := h.started_held
        unheld_empty := h.unheld_empty }
    exact (unhold_spec hnotify hquiet hqueued (fun hP => ⟨(hroom' hP).fits, (hroom' hP).deep⟩)).mono
      (fun _ => id) (fun s' hran => hdone s' (hran.of_record rfl rfl rfl rfl))

theorem call_spec (hnotify : NotifyOk env P C N n notify) (hquiet : P → Quiet env N) (c : Call)
    (hc : c = .unhold_delta → 0 < depth) (hdepth : depth ≤ s.held) (h : Good busy s)
    (hroom : P → Room env C N n 1 s) :
    Safe (Moment P) (Ran env busy depth (c.depth depth) (fun _ _ => 0) 1 s)
      (call env n notify c s) := by
  have hroom₀ : P → Room env C N n 0 s := fun hP =>
    ⟨(Nat.add_le_add_right (Nat.le_succ _) _).trans (hroom hP).fits, (hroom hP).deep⟩
  have hlater : ∀ {s' : State κ} {k : Nat}, k ≤ 1 → Ran env busy 0 0 (fun _ _ => 0) k s s' →
      Ran env busy depth depth (fun _ _ => 0) 1 s s' := fun hk hran =>
    ⟨hran.good, congrArg (· + depth) hran.held_eq, hran.balance, hran.growth.mono hk⟩
  cases c with
  | hold_delta =>
    exact
      { good :=
          { nesting_eq := by
              show s.hold_nesting + 1 = s.held + 1 + busy
              rw [h.nesting_eq]
              omega
            issued_eq := h.issued_eq
            deltas_eq := fun hsucc => absurd hsucc (Nat.succ_ne_zero _)
            started_held := h.started_held
            unheld_empty := h.unheld_empty }
        held_eq := (Nat.add_right_comm _ _ _).trans (Nat.add_assoc _ _ _)
        balance := fun _ _ _ => rfl
        growth := ⟨Nat.le_refl _, Nat.le_refl _, Nat.add_le_add_right (Nat.le_succ _) _⟩ }
  | unhold_delta =>
    have hpos := hc rfl
    have hbusy : Good (busy + 1) { s with held := s.held - 1 } :=
      { nesting_eq := by
          have hnesting := h.nesting_eq
          show s.hold_nesting = s.held - 1 + (busy + 1)
          omega
        issued_eq := h.issued_eq
        deltas_eq := h.deltas_eq
        started_held := h.started_held
        unheld_empty := h.unheld_empty }
    refine (unhold_spec hnotify hquiet hbusy (fun hP => ⟨(hroom₀ hP).fits, (hroom₀ hP).deep⟩)).bind
      fun s' hran => ?_
    exact
      { good :=
          { nesting_eq := hran.good.nesting_eq
            issued_eq := hran.good.issued_eq
            deltas_eq := hran.good.deltas_eq
            started_held := hran.good.started_held
            unheld_empty := fun u hu => (mem_append.mp hu).elim (hran.good.unheld_empty u)
              (fun hu => mem_singleton.mp hu ▸ hran.good.deltas_eq) }
        held_eq := by
          have hheld : s'.held = s.held - 1 := hran.held_eq
          show s'.held + depth = s.held + (depth - 1)
          omega
        balance := hran.balance
        growth := ⟨hran.growth.called_le, hran.growth.started_le,
          (hran.growth.mono (Nat.zero_le 1)).issued_le⟩ }
  | flush_delta =>
    exact (flush_spec hnotify hquiet true h (.inr rfl) hroom₀).mono (fun _ => id)
      (fun s' hs' => hlater (Nat.zero_le 1) hs'.1)
  | delta d =>
    exact (delta_spec hnotify hquiet d h hroom).mono (fun _ => id)
      (fun s' hran => hlater (Nat.le_refl 1) hran)

theorem Nested.cons {c : Call} {calls : List Call} (h : Nested depth (c :: calls)) :
    (c = .unhold_delta → 0 < depth) ∧ Nested (c.depth depth) calls := by
  cases c with
  | unhold_delta => exact ⟨fun _ => h.1, h.2⟩
  | hold_delta | flush_delta | delta d => exact ⟨nofun, h⟩

theorem calls_spec (hnotify : NotifyOk env P C N n notify) (hquiet : P → Quiet env N)
    (calls : List Call) (hnested : Nested depth calls) (hdepth : depth ≤ s.held)
    (h : Good busy s) (hroom : P → Room env C N n calls.length s) :
    Safe (Moment P) (Ran env busy depth 0 (fun _ _ => 0) calls.length s)
      (sequence (call env n notify) calls s) := by
  induction calls generalizing s depth with
  | nil =>
    obtain rfl : depth = 0 := hnested
    exact Ran.refl env _ h
  | cons c calls ih =>
    obtain ⟨hc, hrest⟩ := hnested.cons
    have hroom' : P → Room env C N n (1 + calls.length) s := fun hP =>
      Nat.add_comm calls.length 1 ▸ hroom hP
    have hroom₁ : P → Room env C N n 1 s := fun hP =>
      ⟨(Nat.add_le_add_right (Nat.add_le_add_left (Nat.le_add_right 1 _) _) _).trans
        (hroom' hP).fits, (hroom hP).deep⟩
    rw [Lib.sequence, length_cons, Nat.add_comm]
    refine (call_spec hnotify hquiet c hc hdepth h hroom₁).bind fun s' hfirst => ?_
    have hheld : c.depth depth ≤ s'.held := by
      have hheld := hfirst.held_eq
      omega
    exact (ih hrest hheld hfirst.good (fun hP => (hroom' hP).after hfirst.growth)).mono
      (fun _ => id) (fun s'' hran => hfirst.trans hran)

theorem Ran.of_notified {c : κ} {d : Delta}
    (h : Ran env busy 0 0 (fun _ _ => 0) (env.react s.called.length).calls.length
      { s with called := s.called ++ [(c, d)] } s') : Ran env busy 0 0 (times [c] d) 0 s s' where
  good := h.good
  held_eq := h.held_eq
  balance := by
    intro c' hc' d'
    have hbalance : (callsOf c' s').count d' + (starts s).count d' =
        (((s.called ++ [(c, d)]).filter fun p => p.1 = c').map Prod.snd).count d' +
          (starts s').count d' := h.balance c' hc' d'
    rw [hbalance, filter_append, map_append, count_append, Nat.add_right_comm]
    congr 1
    by_cases hc : c = c'
    · subst hc
      by_cases hd : d = d'
      · simp [times, hd]
      · simp [times, hd, Ne.symm hd]
    · simp [times, hc]
  growth :=
    { called_le := (Nat.le_succ _).trans ((length_append).symm.trans_le h.growth.called_le)
      started_le := h.growth.started_le
      issued_le := by
        have hissued := h.growth.issued_le
        rw [length_append, length_singleton, total_succ] at hissued
        dsimp only at hissued
        omega }

theorem notify_ok (hquiet : P → Quiet env N) (n : Nat) :
    NotifyOk env P C N n (DeltaQueue.notify env n) := by
  induction n with
  | zero =>
    intro busy c d s h hroom
    refine ⟨⟨busy, h⟩, fun hP => ?_⟩
    have hdeep := (hroom hP).deep
    omega
  | succ n ih =>
    intro busy c d s h hroom
    have hcalled : Good busy { s with called := s.called ++ [(c, d)] } :=
      ⟨h.nesting_eq, h.issued_eq, h.deltas_eq, h.started_held, h.unheld_empty⟩
    rw [DeltaQueue.notify]
    by_cases hempty : (env.react s.called.length).calls = []
    · have hran := Ran.refl env 0 hcalled
      rw [hempty]
      refine Ran.of_notified (?_ : Ran env busy 0 0 _ _ _ { s with called := s.called ++ [(c, d)] })
      rw [hempty]
      exact hran
    · refine (calls_spec ih hquiet _ (env.react s.called.length).nested (Nat.zero_le _) hcalled
        (fun hP => ?_)).mono (fun _ => id) (fun s' hran => hran.of_notified)
      have hlater : s.called.length < N := by
        by_contra hge
        exact hempty (hquiet hP _ (Nat.le_of_not_lt hge))
      have hfits := (hroom hP).fits
      have hdeep := (hroom hP).deep
      constructor
      · rw [length_append, length_singleton, total_succ]
        dsimp only
        omega
      · rw [length_append, length_singleton]
        omega

end Functions

/-! ## Runs -/

/-- After the calls everything is dispatched once, in order, and every callback was called for
it. -/
structure Done (env : Callbacks κ) (s : State κ) : Prop where
  deltas_eq : s.deltas = []
  started_eq : s.started.map Start.delta = s.issued
  called_perm : ∀ c ∈ env.cblist, (callsOf c s).Perm s.issued
  started_held : ∀ e ∈ s.started, e.held = 0 ∨ e.explicit = true
  unheld_empty : ∀ u ∈ s.unheld, u.1 = 0 → u.2 = []

theorem Ran.done {k : Nat} (h : Ran env 0 0 0 (fun _ _ => 0) k {} s) : Done env s := by
  have hheld : s.held = 0 := h.held_eq
  have hempty : s.deltas = [] := h.good.deltas_eq (h.good.nesting_eq.trans hheld)
  have hissued : s.issued = starts s := by
    rw [h.good.issued_eq, hempty, append_nil]
  refine ⟨hempty, hissued.symm, fun c hc => ?_, h.good.started_held, h.good.unheld_empty⟩
  refine perm_iff_count.mpr (fun d => ?_)
  have hbalance : (callsOf c s).count d + 0 = 0 + (starts s).count d + 0 := h.balance c hc d
  rw [hissued]
  omega

/-- At every moment nothing is lost. If the callbacks come to an end, so does the run, and then
everything is dispatched. -/
theorem run_done (env : Callbacks κ) (b : Block) :
    (∀ n, Safe Kept (Done env) (run env n b.calls)) ∧
    ∀ N, Quiet env N → ∃ n₀, ∀ n ≥ n₀, Returns (run env n b.calls) := by
  constructor
  · intro n
    refine (calls_spec (P := False) (C := 0) (N := 0) (notify_ok nofun n) nofun b.calls b.nested
      (Nat.zero_le _) good_init nofun).mono ?_ (fun s' hran => hran.done)
    rintro s' ⟨⟨busy, hgood⟩, -⟩
    exact ⟨hgood.issued_eq, hgood.started_held, hgood.unheld_empty⟩
  · intro N hquiet
    refine ⟨b.calls.length + total env N + 1 + N, fun n hn => ?_⟩
    refine Safe.returns ((calls_spec (P := True) (C := b.calls.length + total env N)
      (notify_ok (fun _ => hquiet) n) (fun _ => hquiet) b.calls b.nested (Nat.zero_le _) good_init
      (fun _ => ⟨?_, hn⟩)).mono (fun s' hmoment => hmoment.2 trivial) (fun _ hran => hran))
    exact Nat.le_of_eq (congrArg (· + total env N) (Nat.zero_add _))

/-- The first callback announces something in a hold of its own. -/
theorem run_done_announcing :
    let env : Callbacks Nat :=
      { cblist := [0, 1]
        nodup := List.nodup_range (n := 2)
        react := fun i => if i = 0 then
          ⟨[.hold_delta, .delta ⟨[[98]], none⟩, .flush_delta, .unhold_delta],
            And.intro Nat.one_pos rfl⟩
          else ⟨[], rfl⟩ }
    ∃ n₀, ∀ n ≥ n₀, Returns (run env n [.hold_delta, .delta ⟨[[97]], some [49]⟩, .unhold_delta]) := by
  intro env
  have hnested : Nested 0 [.hold_delta, .delta ⟨[[97]], some [49]⟩, .unhold_delta] := by
    simp [Nested, Call.depth]
  refine (run_done env ⟨_, hnested⟩).2 1 ?_
  intro i hi
  exact congrArg Block.calls (if_neg (Nat.ne_of_gt hi))

end DeltaQueue

end WvStreams
