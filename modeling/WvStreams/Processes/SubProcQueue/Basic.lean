import Mathlib.Data.List.Basic

/-!
# A queue of processes

`WvSubProcQueue` runs the processes that are added to it, at most `maxrunning` at a time. An entry
with a cookie is a sync point, which runs alone. What happens is written down in a log, so that a
moment of a run is a prefix of its log. The calls are made of the steps of `Small`, and `run_induct`
is the rule for whole runs.
-/

namespace WvStreams

open List

/-- `proc` is the ordinal of the process among those that were added, and `running` is what
`proc->wait(0, true)` makes of `proc->running`. -/
structure Ent (κ : Type) where
  cookie : Option κ
  proc : Nat
  redo : Bool := false
  running : Bool := false
  deriving DecidableEq

/-- What can be seen from outside. -/
inductive Happening (κ : Type)
  | added (cookie : Option κ) (proc : Nat)
  | started (cookie : Option κ) (proc : Nat)
  | finished (cookie : Option κ) (proc : Nat)
  deriving DecidableEq

structure WvSubProcQueue (κ : Type) where
  maxrunning : Nat
  runq : List (Ent κ) := []
  waitq : List (Ent κ) := []
  /-- The number of processes that were added. -/
  count : Nat := 0
  deriving DecidableEq

namespace Ent

variable {κ : Type} (e : Ent κ)

def key : Option κ × Nat := (e.cookie, e.proc)

/-- A process that could not be forked is one that finishes at once. -/
def start : Ent κ := { e with running := true }

def finish : Ent κ := { e with running := false }

def mark : Ent κ := { e with redo := true }

def again : Ent κ := { e with redo := false }

end Ent

namespace WvSubProcQueue

variable {κ : Type}

/-- The search of `add`; none if no entry has the cookie. -/
def enqueued [DecidableEq κ] (cookie : κ) : List (Ent κ) → Option (List (Ent κ))
  | [] => none
  | e :: waitq =>
    if e.cookie = some cookie then some ((if waitq.isEmpty then e else e.mark) :: waitq)
    else (enqueued cookie waitq).map (e :: ·)

def add [DecidableEq κ] (q : WvSubProcQueue κ) (cookie : Option κ) : WvSubProcQueue κ :=
  match cookie.bind fun cookie => enqueued cookie q.waitq with
  | some waitq => { q with waitq, count := q.count + 1 }
  | none => { q with waitq := q.waitq ++ [{ cookie, proc := q.count }], count := q.count + 1 }

def cookie_running (q : WvSubProcQueue κ) : Bool := q.runq.any (·.cookie.isSome)

/-- The first loop of `go`: finished processes are removed, or enqueued again. -/
def cleanup (q : WvSubProcQueue κ) : WvSubProcQueue κ :=
  { q with
    runq := q.runq.filter (·.running)
    waitq := q.waitq ++ (q.runq.filter fun e => !e.running && e.redo).map Ent.again }

/-- The loop of `go` that starts the entries of `waitq`, with what it starts. -/
def startLoop (q : WvSubProcQueue κ) : List (Ent κ) → WvSubProcQueue κ × List (Happening κ)
  | [] => (q, [])
  | e :: waitq =>
    if q.runq.length < q.maxrunning then
      if e.cookie.isSome ∧ q.runq ≠ [] then (q, [])
      else if q.cookie_running then (q, [])
      else
        let r := startLoop { q with runq := q.runq ++ [e.start], waitq } waitq
        (r.1, .started e.cookie e.proc :: r.2)
    else (q, [])

def go (q : WvSubProcQueue κ) : WvSubProcQueue κ × List (Happening κ) :=
  q.cleanup.startLoop q.cleanup.waitq

def isempty (q : WvSubProcQueue κ) : Bool := q.runq.isEmpty && q.waitq.isEmpty

/-- The first entry with the process is not running any more. -/
def finishIn (proc : Nat) : List (Ent κ) → Option (Ent κ × List (Ent κ))
  | [] => none
  | e :: runq =>
    if e.running ∧ e.proc = proc then some (e, e.finish :: runq)
    else (finishIn proc runq).map fun r => (r.1, e :: r.2)

/-- `exit` is not a call but the end of a process, which comes at any time. -/
inductive Call (κ : Type)
  | add (cookie : Option κ)
  | go
  | exit (proc : Nat)
  deriving DecidableEq

def step [DecidableEq κ] (q : WvSubProcQueue κ) : Call κ → WvSubProcQueue κ × List (Happening κ)
  | .add cookie => (q.add cookie, [.added cookie q.count])
  | .go => q.go
  | .exit proc =>
    match finishIn proc q.runq with
    | some (e, runq) => ({ q with runq }, [.finished e.cookie e.proc])
    | none => (q, [])

def run [DecidableEq κ] (q : WvSubProcQueue κ) : List (Call κ) → WvSubProcQueue κ × List (Happening κ)
  | [] => (q, [])
  | call :: calls =>
    let r := (q.step call).1.run calls
    (r.1, (q.step call).2 ++ r.2)

theorem run_append [DecidableEq κ] (q : WvSubProcQueue κ) (calls calls' : List (Call κ)) :
    q.run (calls ++ calls') =
      (((q.run calls).1.run calls').1, (q.run calls).2 ++ ((q.run calls).1.run calls').2) := by
  induction calls generalizing q with
  | nil => rfl
  | cons call calls ih => simp only [cons_append, run, ih, append_assoc]

/-- The parts of the calls, each with what it adds to the log; `Allowed` are the cookies that are
added. -/
inductive Small (Allowed : Option κ → Prop) (q : WvSubProcQueue κ) :
    List (Happening κ) → WvSubProcQueue κ → Prop
  /-- `add` leaves an entry at the end as it is. -/
  | merged (cookie : κ) (front : List (Ent κ)) (e : Ent κ) (h : Allowed (some cookie))
      (hwait : q.waitq = front ++ [e]) (hfront : ∀ f ∈ front, f.cookie ≠ some cookie)
      (he : e.cookie = some cookie) :
      Small Allowed q [.added (some cookie) q.count] { q with count := q.count + 1 }
  | marked (cookie : κ) (front : List (Ent κ)) (e : Ent κ) (back : List (Ent κ))
      (h : Allowed (some cookie)) (hback : back ≠ []) (hwait : q.waitq = front ++ e :: back)
      (hfront : ∀ f ∈ front, f.cookie ≠ some cookie) (he : e.cookie = some cookie) :
      Small Allowed q [.added (some cookie) q.count]
        { q with waitq := front ++ e.mark :: back, count := q.count + 1 }
  | appended (cookie : Option κ) (h : Allowed cookie)
      (hnew : ∀ c, cookie = some c → ∀ f ∈ q.waitq, f.cookie ≠ some c) :
      Small Allowed q [.added cookie q.count]
        { q with waitq := q.waitq ++ [{ cookie, proc := q.count }], count := q.count + 1 }
  | finished (front : List (Ent κ)) (e : Ent κ) (back : List (Ent κ))
      (hrun : q.runq = front ++ e :: back) (he : e.running = true)
      (hfront : ∀ f ∈ front, f.running = true → f.proc ≠ e.proc) :
      Small Allowed q [.finished e.cookie e.proc] { q with runq := front ++ e.finish :: back }
  | cleanup : Small Allowed q [] q.cleanup
  | started (e : Ent κ) (waitq : List (Ent κ)) (hwait : q.waitq = e :: waitq)
      (hmax : q.runq.length < q.maxrunning) (hsync : e.cookie ≠ none → q.runq = [])
      (hcookie : ∀ f ∈ q.runq, f.cookie = none) :
      Small Allowed q [.started e.cookie e.proc] { q with runq := q.runq ++ [e.start], waitq }

variable {Allowed : Option κ → Prop}

theorem enqueued_cases [DecidableEq κ] (cookie : κ) (waitq : List (Ent κ)) :
    (enqueued cookie waitq = none ∧ ∀ f ∈ waitq, f.cookie ≠ some cookie) ∨
      ∃ front e back, waitq = front ++ e :: back ∧ (∀ f ∈ front, f.cookie ≠ some cookie) ∧
        e.cookie = some cookie ∧
        enqueued cookie waitq = some (front ++ (if back.isEmpty then e else e.mark) :: back) := by
  induction waitq with
  | nil => exact .inl ⟨rfl, nofun⟩
  | cons e waitq ih =>
    by_cases he : e.cookie = some cookie
    · refine .inr ⟨[], e, waitq, rfl, nofun, he, ?_⟩
      rw [enqueued, if_pos he]
      rfl
    · rcases ih with ⟨hnone, hwait⟩ | ⟨front, f, back, hwait, hfront, hf, hsome⟩
      · refine .inl ⟨?_, ?_⟩
        · rw [enqueued, if_neg he, hnone]
          rfl
        · exact forall_mem_cons.mpr ⟨he, hwait⟩
      · refine .inr ⟨e :: front, f, back, ?_, ?_, hf, ?_⟩
        · rw [hwait, cons_append]
        · exact forall_mem_cons.mpr ⟨he, hfront⟩
        · rw [enqueued, if_neg he, hsome]
          rfl

theorem small_add [DecidableEq κ] (q : WvSubProcQueue κ) {cookie : Option κ} (h : Allowed cookie) :
    Small Allowed q [.added cookie q.count] (q.add cookie) := by
  unfold add
  cases cookie with
  | none => exact .appended none h nofun
  | some cookie =>
    rw [Option.bind_some]
    rcases enqueued_cases cookie q.waitq with ⟨hnone, hwait⟩ |
        ⟨front, e, back, hwait, hfront, he, hsome⟩
    · rw [hnone]
      refine .appended (some cookie) h ?_
      intro c hc
      cases hc
      exact hwait
    · rw [hsome]
      cases back with
      | nil =>
        show Small Allowed q _ { q with waitq := front ++ [e], count := q.count + 1 }
        rw [← hwait]
        exact .merged cookie front e h hwait hfront he
      | cons b back =>
        exact .marked cookie front e (b :: back) h (cons_ne_nil _ _) hwait hfront he

theorem finishIn_cases (proc : Nat) (runq : List (Ent κ)) :
    (finishIn proc runq = none ∧ ∀ f ∈ runq, f.running = true → f.proc ≠ proc) ∨
      ∃ front e back, runq = front ++ e :: back ∧ e.running = true ∧ e.proc = proc ∧
        (∀ f ∈ front, f.running = true → f.proc ≠ proc) ∧
        finishIn proc runq = some (e, front ++ e.finish :: back) := by
  induction runq with
  | nil => exact .inl ⟨rfl, nofun⟩
  | cons e runq ih =>
    by_cases he : e.running ∧ e.proc = proc
    · refine .inr ⟨[], e, runq, rfl, he.1, he.2, nofun, ?_⟩
      rw [finishIn, if_pos he]
      rfl
    · have hother : e.running = true → e.proc ≠ proc := fun hrunning hproc => he ⟨hrunning, hproc⟩
      rcases ih with ⟨hnone, hrun⟩ | ⟨front, f, back, hrun, hf, hproc, hfront, hsome⟩
      · refine .inl ⟨?_, forall_mem_cons.mpr ⟨hother, hrun⟩⟩
        rw [finishIn, if_neg he, hnone]
        rfl
      · refine .inr ⟨e :: front, f, back, ?_, hf, hproc, ?_, ?_⟩
        · rw [hrun, cons_append]
        · exact forall_mem_cons.mpr ⟨hother, hfront⟩
        · rw [finishIn, if_neg he, hsome]
          rfl

variable {q : WvSubProcQueue κ} {P : WvSubProcQueue κ → List (Happening κ) → Prop}

theorem cookie_running_eq_false : q.cookie_running = false ↔ ∀ f ∈ q.runq, f.cookie = none := by
  simp [cookie_running]

theorem startLoop_induct (hstep : ∀ q log l q', P q log → Small Allowed q l q' → P q' (log ++ l))
    (q : WvSubProcQueue κ) (log : List (Happening κ)) (hq : P q log) :
    P (q.startLoop q.waitq).1 (log ++ (q.startLoop q.waitq).2) := by
  generalize hwait : q.waitq = waitq
  induction waitq generalizing q log with
  | nil =>
    rw [startLoop, append_nil]
    exact hq
  | cons e waitq ih =>
    rw [startLoop]
    split
    · rename_i hmax
      split
      · rw [append_nil]
        exact hq
      · rename_i hsync
        split
        · rw [append_nil]
          exact hq
        · rename_i hcookie
          have hsync' : e.cookie ≠ none → q.runq = [] := by
            intro he
            by_contra hrun
            exact hsync ⟨Option.isSome_iff_ne_none.mpr he, hrun⟩
          have hnext := hstep q log _ _ hq (.started e waitq hwait hmax hsync'
            (cookie_running_eq_false.mp (Bool.eq_false_iff.mpr hcookie)))
          have hrest := ih { q with runq := q.runq ++ [e.start], waitq } _ hnext rfl
          rwa [append_assoc] at hrest
    · rw [append_nil]
      exact hq

theorem step_induct [DecidableEq κ]
    (hstep : ∀ q log l q', P q log → Small Allowed q l q' → P q' (log ++ l))
    {log : List (Happening κ)} (hq : P q log) (call : Call κ)
    (hcall : ∀ cookie, call = .add cookie → Allowed cookie) :
    P (q.step call).1 (log ++ (q.step call).2) := by
  cases call with
  | add cookie => exact hstep q log _ _ hq (small_add q (hcall cookie rfl))
  | go =>
    have hclean := hstep q log _ _ hq .cleanup
    rw [append_nil] at hclean
    exact startLoop_induct hstep q.cleanup log hclean
  | exit proc =>
    unfold step
    rcases finishIn_cases proc q.runq with ⟨hnone, -⟩ |
        ⟨front, e, back, hrun, he, hp, hfront, hsome⟩
    · simp only [hnone, append_nil]
      exact hq
    · subst hp
      simp only [hsome]
      exact hstep q log _ _ hq (.finished front e back hrun he hfront)

theorem run_induct_from [DecidableEq κ]
    (hstep : ∀ q log l q', P q log → Small Allowed q l q' → P q' (log ++ l))
    {log : List (Happening κ)} (hq : P q log) {calls : List (Call κ)}
    (hcalls : ∀ cookie, .add cookie ∈ calls → Allowed cookie) :
    P (q.run calls).1 (log ++ (q.run calls).2) := by
  induction calls generalizing q log with
  | nil =>
    rw [run, append_nil]
    exact hq
  | cons call calls ih =>
    have hnext := step_induct hstep hq call
      fun cookie hc => hcalls cookie (hc ▸ mem_cons_self)
    have hrest := ih hnext fun cookie hc => hcalls cookie (mem_cons_of_mem _ hc)
    rwa [append_assoc] at hrest

theorem run_induct [DecidableEq κ]
    (hstep : ∀ q log l q', P q log → Small Allowed q l q' → P q' (log ++ l)) (hq : P q [])
    (calls : List (Call κ)) (hcalls : ∀ cookie, .add cookie ∈ calls → Allowed cookie) :
    P (q.run calls).1 (q.run calls).2 :=
  run_induct_from hstep hq hcalls

end WvSubProcQueue

end WvStreams
