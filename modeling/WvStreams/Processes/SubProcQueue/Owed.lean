import Mathlib.Data.List.TakeWhile
import WvStreams.Processes.SubProcQueue.Concurrency

/-!
# The runs that are owed

A waiting entry is owed a run, and one that is marked is owed another one. Each start pays for one
of them (`owed_run`), and the queue can always be drained (`exists_drain`), so the number of starts
after the last `add` of a cookie is what is owed to it then. It is not more than two unless the
entry that `add` marks is not the only one that is owed something (`starts_after_add_iff`).
-/

namespace WvStreams

open List Bool

namespace WvSubProcQueue

variable {κ : Type} {Allowed : Option κ → Prop} (sel : Option κ × Nat → Bool)

/-! ## Counting entries -/

def waits (l : List (Ent κ)) : Nat := l.countP fun e => sel e.key

def redos (l : List (Ent κ)) : Nat := l.countP fun e => sel e.key && e.redo

def runs (l : List (Ent κ)) : Nat := l.countP fun e => sel e.key && e.running

section Counting

variable (l l' : List (Ent κ)) (e : Ent κ)

@[simp] theorem waits_append : waits sel (l ++ l') = waits sel l + waits sel l' :=
  countP_append

@[simp] theorem redos_append : redos sel (l ++ l') = redos sel l + redos sel l' :=
  countP_append

@[simp] theorem runs_append : runs sel (l ++ l') = runs sel l + runs sel l' :=
  countP_append

@[simp] theorem waits_nil : waits sel ([] : List (Ent κ)) = 0 := rfl

@[simp] theorem redos_nil : redos sel ([] : List (Ent κ)) = 0 := rfl

@[simp] theorem runs_nil : runs sel ([] : List (Ent κ)) = 0 := rfl

@[simp] theorem waits_cons : waits sel (e :: l) = waits sel l + (sel e.key).toNat := by
  rw [waits, countP_cons]
  cases sel e.key <;> rfl

@[simp] theorem redos_cons : redos sel (e :: l) = redos sel l + (sel e.key && e.redo).toNat := by
  rw [redos, countP_cons]
  cases sel e.key && e.redo <;> rfl

@[simp] theorem runs_cons : runs sel (e :: l) = runs sel l + (sel e.key && e.running).toNat := by
  rw [runs, countP_cons]
  cases sel e.key && e.running <;> rfl

theorem redos_le_waits : redos sel l ≤ waits sel l := by
  apply countP_mono_left
  intro e _ h
  exact (and_eq_true_iff.mp h).1

theorem waits_eq_zero : waits sel l = 0 ↔ ∀ e ∈ l, sel e.key = false := by
  simp [waits]

theorem redos_eq_zero : redos sel l = 0 ↔ ∀ e ∈ l, sel e.key = true → e.redo = false := by
  simp [redos]

end Counting

@[simp] theorem key_start (e : Ent κ) : e.start.key = e.key := rfl

@[simp] theorem key_finish (e : Ent κ) : e.finish.key = e.key := rfl

@[simp] theorem key_mark (e : Ent κ) : e.mark.key = e.key := rfl

@[simp] theorem key_again (e : Ent κ) : e.again.key = e.key := rfl

@[simp] theorem redo_start (e : Ent κ) : e.start.redo = e.redo := rfl

@[simp] theorem redo_finish (e : Ent κ) : e.finish.redo = e.redo := rfl

@[simp] theorem redo_mark (e : Ent κ) : e.mark.redo = true := rfl

@[simp] theorem redo_again (e : Ent κ) : e.again.redo = false := rfl

@[simp] theorem running_start (e : Ent κ) : e.start.running = true := rfl

@[simp] theorem running_finish (e : Ent κ) : e.finish.running = false := rfl

def requeued (runq : List (Ent κ)) : List (Ent κ) :=
  (runq.filter fun e => !e.running && e.redo).map Ent.again

theorem requeued_cons (e : Ent κ) (runq : List (Ent κ)) : requeued (e :: runq) =
    if e.running = false ∧ e.redo = true then e.again :: requeued runq else requeued runq := by
  rw [requeued, filter_cons]
  cases e.running <;> cases e.redo <;> rfl

theorem cleanup_waitq (q : WvSubProcQueue κ) : q.cleanup.waitq = q.waitq ++ requeued q.runq := rfl

theorem cleanup_runq (q : WvSubProcQueue κ) : q.cleanup.runq = q.runq.filter Ent.running := rfl

theorem redo_of_mem_requeued {runq : List (Ent κ)} {e : Ent κ} (he : e ∈ requeued runq) :
    e.redo = false := by
  obtain ⟨f, -, rfl⟩ := mem_map.mp he
  rfl

theorem redos_requeued (runq : List (Ent κ)) : redos sel (requeued runq) = 0 :=
  (redos_eq_zero sel _).mpr fun _ he _ => redo_of_mem_requeued he

theorem redos_cleanup (runq : List (Ent κ)) :
    redos sel (runq.filter Ent.running) + waits sel (requeued runq) = redos sel runq := by
  induction runq with
  | nil => rfl
  | cons e runq ih =>
    rw [redos_cons, ← ih, requeued_cons]
    cases hrunning : e.running with
    | true =>
      rw [filter_cons_of_pos hrunning, redos_cons, if_neg fun h => nomatch h.1]
      omega
    | false =>
      rw [filter_cons_of_neg (eq_false_iff.mp hrunning)]
      cases hredo : e.redo with
      | true =>
        rw [if_pos ⟨rfl, rfl⟩, waits_cons, key_again, Bool.and_true]
        omega
      | false =>
        simp

theorem runs_cleanup (runq : List (Ent κ)) :
    runs sel (runq.filter Ent.running) = runs sel runq := by
  rw [runs, countP_filter]
  apply countP_congr
  intro e _
  simp only [Bool.and_assoc, Bool.and_self]

/-! ## What is owed -/

/-- The number of runs that the entries will get without any further `add`, apart from those that
have begun. -/
def owed (q : WvSubProcQueue κ) : Nat := waits sel q.waitq + redos sel q.waitq + redos sel q.runq

def isStart : Happening κ → Bool
  | .started cookie proc => sel (cookie, proc)
  | _ => false

def startsOf (log : List (Happening κ)) : Nat := log.countP (isStart sel)

theorem startsOf_started (e : Ent κ) :
    startsOf sel [.started e.cookie e.proc] = (sel e.key).toNat := by
  cases hkey : sel e.key with
  | true => exact countP_cons_of_pos hkey
  | false => exact countP_cons_of_neg (eq_false_iff.mp hkey)

variable {q : WvSubProcQueue κ}

theorem owed_of_small (hsel : ∀ cookie proc, Allowed cookie → sel (cookie, proc) = false)
    {q' : WvSubProcQueue κ} {l : List (Happening κ)} (hsmall : Small Allowed q l q') :
    startsOf sel l + owed sel q' = owed sel q := by
  cases hsmall with
  | merged => exact Nat.zero_add _
  | marked cookie front e back h _ hwait _ he =>
    have hkey : sel e.key = false := by rw [Ent.key, he]; exact hsel _ _ h
    show 0 + owed sel _ = _
    simp [owed, hwait, hkey]
  | appended cookie h =>
    have hkey : sel (cookie, q.count) = false := hsel _ _ h
    show 0 + owed sel _ = _
    simp [owed, Ent.key, hkey]
  | finished front e back hrun =>
    show 0 + owed sel _ = _
    simp [owed, hrun]
  | cleanup =>
    show 0 + owed sel _ = _
    have hredos := redos_cleanup sel q.runq
    have hagain := redos_requeued sel q.runq
    simp only [owed, cleanup_waitq, cleanup_runq, waits_append, redos_append]
    omega
  | started e waitq hwait =>
    rw [startsOf_started]
    simp only [owed, hwait, waits_cons, redos_cons, redos_append, key_start, redo_start, redos_nil]
    omega

theorem startsOf_append (log log' : List (Happening κ)) :
    startsOf sel (log ++ log') = startsOf sel log + startsOf sel log' := countP_append

/-- In a run without an `add` of what is counted. -/
theorem owed_run [DecidableEq κ] (q : WvSubProcQueue κ) {calls : List (Call κ)}
    (hcalls : ∀ cookie proc, .add cookie ∈ calls → sel (cookie, proc) = false) :
    startsOf sel (q.run calls).2 + owed sel (q.run calls).1 = owed sel q := by
  have hstep : ∀ (r : WvSubProcQueue κ) log l r', startsOf sel log + owed sel r = owed sel q →
      Small (fun cookie => ∀ proc, sel (cookie, proc) = false) r l r' →
      startsOf sel (log ++ l) + owed sel r' = owed sel q := by
    intro r log l r' h hsmall
    have hsame := owed_of_small sel (fun _ proc hallowed => hallowed proc) hsmall
    rw [startsOf_append]
    omega
  have hnil : startsOf sel ([] : List (Happening κ)) + owed sel q = owed sel q := Nat.zero_add _
  exact run_induct hstep hnil calls fun cookie hc proc => hcalls cookie proc hc

/-! ## Draining the queue -/

theorem startLoop_starts (hmax : 0 < q.maxrunning) (hrun : q.runq = []) (hwait : q.waitq ≠ []) :
    0 < startsOf (fun _ => true) (q.startLoop q.waitq).2 := by
  cases hq : q.waitq with
  | nil => exact absurd hq hwait
  | cons e waitq =>
    have hcookie : q.cookie_running = false := by rw [cookie_running, hrun]; rfl
    rw [startLoop, if_pos (by rw [hrun]; exact hmax), if_neg fun h => h.2 hrun,
      if_neg (by rw [hcookie]; exact false_ne_true)]
    exact countP_pos_iff.mpr ⟨_, mem_cons_self, rfl⟩

theorem go_of_finished (hmax : 0 < q.maxrunning) (hrun : ∀ e ∈ q.runq, e.running = false) :
    q.go.1.isempty = true ∨ 0 < startsOf (fun _ => true) q.go.2 := by
  have hclean : q.cleanup.runq = [] := by
    rw [cleanup_runq, filter_eq_nil_iff]
    intro e he
    exact eq_false_iff.mp (hrun e he)
  by_cases hwait : q.cleanup.waitq = []
  · left
    rw [go, hwait, startLoop, isempty, hclean, hwait]
    rfl
  · exact Or.inr (startLoop_starts hmax hclean hwait)

variable [DecidableEq κ]

theorem exists_finished (q : WvSubProcQueue κ) :
    ∃ calls, (∀ cookie, .add cookie ∉ calls) ∧ ∀ e ∈ (q.run calls).1.runq, e.running = false := by
  generalize hn : runs (fun _ => true) q.runq = n
  induction n generalizing q with
  | zero =>
    refine ⟨[], fun _ => not_mem_nil, ?_⟩
    intro e he
    have hnone := countP_eq_zero.mp hn e he
    exact eq_false_iff.mpr hnone
  | succ n ih =>
    have hpos : 0 < runs (fun _ => true) q.runq := by omega
    obtain ⟨e, he, hrunning⟩ := countP_pos_iff.mp hpos
    rcases finishIn_cases e.proc q.runq with ⟨-, hnone⟩ | ⟨front, f, back, hrun, hf, -, -, hsome⟩
    · exact absurd rfl (hnone e he hrunning)
    · have hstep : (q.step (.exit e.proc)).1 = { q with runq := front ++ f.finish :: back } := by
        simp only [step, hsome]
      have hfewer : runs (fun _ => true) (front ++ f.finish :: back) = n := by
        rw [hrun] at hn
        simp only [runs_append, runs_cons, hf, running_finish, Bool.toNat_true, Bool.toNat_false,
          Bool.and_true, Bool.and_false] at hn ⊢
        omega
      obtain ⟨calls, hcalls, hdone⟩ := ih { q with runq := front ++ f.finish :: back } hfewer
      refine ⟨.exit e.proc :: calls, ?_, ?_⟩
      · intro cookie hmem
        rcases mem_cons.mp hmem with heq | hmem
        · cases heq
        · exact hcalls cookie hmem
      · rw [run, hstep]
        exact hdone

/-- If the processes end and `go` is called, the queue becomes empty. -/
theorem exists_drain (q : WvSubProcQueue κ) (hmax : 0 < q.maxrunning) :
    ∃ calls, (∀ cookie, .add cookie ∉ calls) ∧ (q.run calls).1.isempty = true := by
  generalize hn : owed (fun _ => true) q = n
  induction n using Nat.strongRecOn generalizing q with
  | ind n ih =>
    obtain ⟨exits, hexits, hdone⟩ := exists_finished q
    have hrun : (q.run (exits ++ [.go])).1 = (q.run exits).1.go.1 := by
      rw [run_append]
      rfl
    have hlog : (q.run (exits ++ [.go])).2 = (q.run exits).2 ++ (q.run exits).1.go.2 := by
      rw [run_append]
      exact congrArg _ (append_nil _)
    have hnoadd : ∀ cookie, Call.add cookie ∉ exits ++ [.go] := by
      intro cookie hmem
      rcases mem_append.mp hmem with hmem | hmem
      · exact hexits cookie hmem
      · cases mem_singleton.mp hmem
    rcases go_of_finished (by rw [maxrunning_run]; exact hmax) hdone with hempty | hstarts
    · exact ⟨exits ++ [.go], hnoadd, hrun ▸ hempty⟩
    · have hpaid : startsOf (fun _ => true) (q.run (exits ++ [.go])).2 +
          owed (fun _ => true) (q.run (exits ++ [.go])).1 = owed (fun _ => true) q :=
        owed_run _ q fun cookie _ hmem => absurd hmem (hnoadd cookie)
      rw [hlog, startsOf_append] at hpaid
      obtain ⟨calls, hcalls, hempty⟩ := ih _ (by omega) (q.run (exits ++ [.go])).1
        (by rw [maxrunning_run]; exact hmax) rfl
      refine ⟨(exits ++ [.go]) ++ calls, ?_, ?_⟩
      · intro cookie hmem
        rcases mem_append.mp hmem with hmem | hmem
        · exact hnoadd cookie hmem
        · exact hcalls cookie hmem
      · rw [run_append]
        exact hempty

def idleGos (q : WvSubProcQueue κ) : List (Call κ) → Nat
  | [] => 0
  | call :: calls =>
    (if call = .go ∧ ∀ e ∈ q.runq, e.running = false then 1 else 0) + (q.step call).1.idleGos calls

theorem isempty_run (h : q.isempty = true) {calls : List (Call κ)}
    (hcalls : ∀ cookie, .add cookie ∉ calls) : (q.run calls).1.isempty = true := by
  induction calls generalizing q with
  | nil => exact h
  | cons call calls ih =>
    obtain ⟨hcall, hrest⟩ := forall_and.mp fun cookie => not_or.mp (mem_cons.not.mp (hcalls cookie))
    refine ih ?_ hrest
    obtain ⟨hrun, hwait⟩ := and_eq_true_iff.mp h
    obtain ⟨maxrunning, runq, waitq, count⟩ := q
    obtain rfl := isEmpty_iff.mp hrun
    obtain rfl := isEmpty_iff.mp hwait
    cases call with
    | add cookie => exact absurd rfl (hcall cookie)
    | go => rfl
    | exit proc => rfl

theorem isempty_of_idleGos (hmax : 0 < q.maxrunning) {calls : List (Call κ)}
    (hcalls : ∀ cookie, .add cookie ∉ calls) (hgos : owed (fun _ => true) q < q.idleGos calls) :
    (q.run calls).1.isempty = true := by
  induction calls generalizing q with
  | nil => exact absurd hgos (Nat.not_lt_zero _)
  | cons call calls ih =>
    obtain ⟨hcall, hrest⟩ := forall_and.mp fun cookie => not_or.mp (mem_cons.not.mp (hcalls cookie))
    have hpaid : startsOf (fun _ => true) (q.step call).2 + owed (fun _ => true) (q.step call).1 =
        owed (fun _ => true) q := by
      have hone : startsOf (fun _ => true) (q.run [call]).2 + _ = _ :=
        owed_run _ q fun cookie _ hmem => absurd (mem_singleton.mp hmem) (hcall cookie)
      simpa only [run, append_nil] using hone
    have hmax' : 0 < (q.step call).1.maxrunning := (maxrunning_run q [call]).symm ▸ hmax
    rw [idleGos] at hgos
    rw [run]
    split at hgos
    · rename_i hidle
      obtain ⟨rfl, hidle⟩ := hidle
      rcases go_of_finished hmax hidle with hempty | hstarts
      · exact isempty_run hempty hrest
      · have hstarts' : 0 < startsOf (fun _ => true) (q.step .go).2 := hstarts
        exact ih hmax' hrest (by omega)
    · exact ih hmax' hrest (by omega)

/-- When nothing is added any more and `go` is called often enough while no process runs, the queue
becomes empty, and all processes were started as often as they were to be. -/
theorem drains (hmax : 0 < q.maxrunning) {calls : List (Call κ)}
    (hcalls : ∀ cookie, .add cookie ∉ calls) (hgos : owed (fun _ => true) q < q.idleGos calls) :
    (q.run calls).1.isempty = true ∧ ∀ sel, startsOf sel (q.run calls).2 = owed sel q := by
  have hempty := isempty_of_idleGos hmax hcalls hgos
  refine ⟨hempty, fun sel => ?_⟩
  rw [← owed_run sel q fun cookie _ hmem => absurd hmem (hcalls cookie)]
  obtain ⟨hrun, hwait⟩ := and_eq_true_iff.mp hempty
  rw [owed, isEmpty_iff.mp hrun, isEmpty_iff.mp hwait]
  rfl

/-- A sync point that is to run again, behind another process. -/
theorem drains_twice :
    let q := (({ maxrunning := 2 } : WvSubProcQueue Nat).run
      [.add none, .add (some 0), .add none, .add (some 0)]).1
    let r := q.run [.go, .exit 0, .go, .exit 1, .go, .exit 2, .go, .exit 1, .go, .go]
    r.1.isempty = true ∧ ∀ sel, startsOf sel r.2 = owed sel q :=
  drains (by decide) (by simp) (by decide)

/-! ## Reachable states -/

def ofCookie (cookie : κ) (k : Option κ × Nat) : Bool := k.1 = some cookie

/-- There are never more than two entries with a cookie, and the last entry is not marked. -/
structure Tidy (q : WvSubProcQueue κ) : Prop where
  sound : q.Sound
  pair : ∀ cookie, waits (ofCookie cookie) (q.runq ++ q.waitq) ≤ 2
  last : ∀ front e, q.waitq = front ++ [e] → e.redo = false

theorem ofCookie_key {cookie : κ} {e : Ent κ} :
    ofCookie cookie e.key = true ↔ e.cookie = some cookie := by
  unfold ofCookie
  exact decide_eq_true_iff

theorem Sound.waits_le_one (h : q.Sound) (cookie : κ) : waits (ofCookie cookie) q.runq ≤ 1 := by
  by_cases hnone : ∃ e ∈ q.runq, e.cookie = some cookie
  · obtain ⟨e, he, hcookie⟩ := hnone
    rw [h.alone e he (hcookie ▸ Option.some_ne_none _)]
    simpa using toNat_le _
  · have hzero : waits (ofCookie cookie) q.runq = 0 := by
      rw [waits_eq_zero]
      intro e he
      exact eq_false_iff.mpr fun hkey => hnone ⟨e, he, ofCookie_key.mp hkey⟩
    omega

omit [DecidableEq κ] in
theorem waits_requeued_le (sel : Option κ × Nat → Bool) (runq : List (Ent κ)) :
    waits sel (runq.filter Ent.running) + waits sel (requeued runq) ≤ waits sel runq := by
  induction runq with
  | nil => exact Nat.le_refl _
  | cons e runq ih =>
    rw [requeued_cons, filter_cons]
    cases e.running <;> cases e.redo <;> simp <;> omega

theorem Tidy.of_small {q' : WvSubProcQueue κ} {l : List (Happening κ)} (h : q.Tidy)
    (hsmall : Small Allowed q l q') : q'.Tidy := by
  refine ⟨h.sound.of_small hsmall, ?_, ?_⟩
  · intro cookie
    have hpair := h.pair cookie
    cases hsmall with
    | merged => exact hpair
    | marked c front e back _ _ hwait =>
      simpa [hwait] using hpair
    | appended c hallowed hnew =>
      by_cases hc : c = some cookie
      · -- no other entry with the cookie waits, and at most one runs
        have hwait : waits (ofCookie cookie) q.waitq = 0 := by
          rw [waits_eq_zero]
          intro e he
          exact eq_false_iff.mpr fun hkey => hnew cookie hc e he (ofCookie_key.mp hkey)
        have hrun := h.sound.waits_le_one cookie
        have hone := toNat_le (ofCookie cookie (Ent.key { cookie := c, proc := q.count }))
        simp only [waits_append, waits_cons, waits_nil]
        omega
      · have hkey : ofCookie cookie (Ent.key { cookie := c, proc := q.count }) = false :=
          eq_false_iff.mpr fun hkey => hc (ofCookie_key.mp hkey)
        simpa [hkey] using hpair
    | finished front e back hrun => simpa [hrun] using hpair
    | cleanup =>
      have hle := waits_requeued_le (ofCookie cookie) q.runq
      simp only [cleanup_runq, cleanup_waitq, waits_append] at hpair ⊢
      omega
    | started e waitq hwait =>
      simp only [hwait, waits_append, waits_cons, waits_nil, key_start] at hpair ⊢
      omega
  · have hlast : ∀ {front front' : List (Ent κ)} {e f : Ent κ}, front ++ [e] = front' ++ [f] →
        e = f := fun heq => singleton_inj.mp (append_inj' heq rfl).2
    intro front f hf
    cases hsmall with
    | merged => exact h.last front f hf
    | marked c first e back _ hback hwait =>
      obtain ⟨back, g, rfl⟩ := (eq_nil_or_concat' back).resolve_left hback
      have hg : g = f := hlast (append_assoc first (e.mark :: back) [g] ▸ hf)
      exact hg ▸ h.last (first ++ e :: back) g (by rw [hwait, append_assoc]; rfl)
    | appended c => exact hlast hf ▸ rfl
    | finished => exact h.last front f hf
    | cleanup =>
      rcases eq_nil_or_concat' (requeued q.runq) with hnil | ⟨again, g, hagain⟩
      · rw [cleanup_waitq, hnil, append_nil] at hf
        exact h.last front f hf
      · rw [cleanup_waitq, hagain, ← append_assoc] at hf
        rw [← hlast hf]
        exact redo_of_mem_requeued (hagain ▸ mem_append_right _ mem_cons_self)
    | started e waitq hwait =>
      exact h.last (e :: front) f (by rw [hwait, cons_append]; exact congrArg _ hf)

theorem tidy_run (maxrunning : Nat) (calls : List (Call κ)) :
    (({ maxrunning } : WvSubProcQueue κ).run calls).1.Tidy := by
  have hstep : ∀ (q : WvSubProcQueue κ) (log l : List (Happening κ)) q', q.Tidy →
      Small (fun _ => True) q l q' → q'.Tidy := fun _ _ _ _ h hsmall => h.of_small hsmall
  have hstart : ({ maxrunning } : WvSubProcQueue κ).Tidy := by
    refine ⟨⟨Nat.zero_le _, nofun⟩, fun _ => Nat.zero_le _, ?_⟩
    intro front e hempty
    exact absurd (congrArg length hempty) (by simp)
  exact run_induct hstep hstart calls fun _ _ => trivial

/-! ## The starts after the last `add` -/

def behind (cookie : κ) (q : WvSubProcQueue κ) : List (Ent κ) :=
  (q.waitq.dropWhile fun e => e.cookie ≠ some cookie).tail

theorem behind_eq {cookie : κ} {front : List (Ent κ)} {e : Ent κ} {back : List (Ent κ)}
    (hwait : q.waitq = front ++ e :: back) (hfront : ∀ f ∈ front, f.cookie ≠ some cookie)
    (he : e.cookie = some cookie) : behind cookie q = back := by
  rw [behind, hwait, dropWhile_append_of_pos fun f hf => decide_eq_true (hfront f hf),
    dropWhile_cons_of_neg (by simpa using he), tail_cons]

theorem behind_of_forall_ne {cookie : κ} (hwait : ∀ e ∈ q.waitq, e.cookie ≠ some cookie) :
    behind cookie q = [] := by
  rw [behind, dropWhile_eq_nil_iff.mpr fun e he => decide_eq_true (hwait e he), tail_nil]

/-- If the entry that `add` finds is not the last one, no other entry with the cookie is owed a
run. -/
def OwedOnce (cookie : κ) (q : WvSubProcQueue κ) : Prop :=
  behind cookie q ≠ [] → (∀ e ∈ behind cookie q, e.cookie ≠ some cookie) ∧
    ∀ e ∈ q.runq, e.cookie = some cookie → e.redo = false

theorem owed_add_le_two_iff (h : q.Tidy) (cookie : κ) :
    owed (ofCookie cookie) (q.add (some cookie)) ≤ 2 ↔ OwedOnce cookie q := by
  have hrun := h.sound.waits_le_one cookie
  have hredos := redos_le_waits (ofCookie cookie) q.runq
  have hzero : ∀ {l : List (Ent κ)}, (∀ f ∈ l, f.cookie ≠ some cookie) ↔
      waits (ofCookie cookie) l = 0 := by
    intro l
    rw [waits_eq_zero]
    exact forall₂_congr fun f _ => by rw [← not_eq_true, ofCookie_key]
  have hrepeats : (∀ e ∈ q.runq, e.cookie = some cookie → e.redo = false) ↔
      redos (ofCookie cookie) q.runq = 0 := by
    rw [redos_eq_zero]
    exact forall₂_congr fun e _ => by rw [ofCookie_key]
  have hsmall : Small (fun _ => True) q _ (q.add (some cookie)) := small_add q trivial
  generalize q.add (some cookie) = r at hsmall
  cases hsmall with
  | merged _ front e _ hwait hfront he =>
    have hbehind := behind_eq hwait hfront he
    have hlast := h.last front e hwait
    have hwaits := hzero.mp hfront
    have hle := redos_le_waits (ofCookie cookie) front
    have hkey := toNat_le (ofCookie cookie e.key)
    refine iff_of_true ?_ fun hne => absurd hbehind hne
    simp only [owed, hwait, waits_append, waits_cons, waits_nil, redos_append, redos_cons, redos_nil,
      hlast, Bool.and_false, Bool.toNat_false]
    omega
  | marked _ front e back _ hback hwait hfront he =>
    have hbehind := behind_eq hwait hfront he
    have hwaits := hzero.mp hfront
    have hle := redos_le_waits (ofCookie cookie) front
    have hle' := redos_le_waits (ofCookie cookie) back
    have hkey := ofCookie_key.mpr he
    rw [OwedOnce, hbehind, hzero, hrepeats]
    simp only [owed, waits_append, waits_cons, redos_append, redos_cons, key_mark, redo_mark, hkey,
      Bool.and_self, Bool.toNat_true]
    constructor
    · intro htwo _
      omega
    · intro hnone
      have hnone := hnone hback
      omega
  | appended _ _ hnew =>
    have hwait := hnew cookie rfl
    have hwaits := hzero.mp hwait
    have hle := redos_le_waits (ofCookie cookie) q.waitq
    have hkey := toNat_le (ofCookie cookie (some cookie, q.count))
    refine iff_of_true ?_ fun hne => absurd (behind_of_forall_ne hwait) hne
    simp only [owed, waits_append, waits_cons, waits_nil, redos_append, redos_cons, redos_nil,
      Ent.key, Bool.and_false, Bool.toNat_false]
    omega

theorem startsOf_eq_zero (sel : Option κ × Nat → Bool) (q : WvSubProcQueue κ)
    (hmax : q.maxrunning = 0) (calls : List (Call κ)) : startsOf sel (q.run calls).2 = 0 := by
  have hstep : ∀ (r : WvSubProcQueue κ) log l r', r.maxrunning = 0 ∧ startsOf sel log = 0 →
      Small (fun _ => True) r l r' → r'.maxrunning = 0 ∧ startsOf sel (log ++ l) = 0 := by
    intro r log l r' h hsmall
    refine ⟨(maxrunning_of_small hsmall).trans h.1, ?_⟩
    rw [startsOf_append, h.2]
    cases hsmall with
    | merged | marked | appended | finished | cleanup => rfl
    | started e waitq hwait hlt =>
      rw [h.1] at hlt
      exact absurd hlt (Nat.not_lt_zero _)
  exact (run_induct hstep ⟨hmax, rfl⟩ calls fun _ _ => trivial).2

/-- After an `add` of a cookie that is not added again, its processes are started at most twice
if and only if the entry that `add` marks is the only one with the cookie that is owed a run. -/
theorem starts_after_add_iff (maxrunning : Nat) (before : List (Call κ)) (cookie : κ) :
    let q := (({ maxrunning } : WvSubProcQueue κ).run before).1
    (∀ after, .add (some cookie) ∉ after →
      startsOf (ofCookie cookie) ((q.add (some cookie)).run after).2 ≤ 2) ↔
        maxrunning = 0 ∨ OwedOnce cookie q := by
  intro q
  have htidy : q.Tidy := tidy_run maxrunning before
  have hsame : (q.add (some cookie)).maxrunning = maxrunning := by
    have hsmall : Small (fun _ => True) q _ (q.add (some cookie)) := small_add q trivial
    exact (maxrunning_of_small hsmall).trans (maxrunning_run _ before)
  have hpaid : ∀ after, .add (some cookie) ∉ after →
      startsOf (ofCookie cookie) ((q.add (some cookie)).run after).2 +
        owed (ofCookie cookie) ((q.add (some cookie)).run after).1 =
          owed (ofCookie cookie) (q.add (some cookie)) := by
    intro after hafter
    refine owed_run (ofCookie cookie) _ fun c proc hmem => ?_
    refine eq_false_iff.mpr fun hkey => hafter ?_
    have hc : c = some cookie := of_decide_eq_true hkey
    exact hc ▸ hmem
  rw [← owed_add_le_two_iff htidy cookie]
  constructor
  · intro htwice
    rcases Nat.eq_zero_or_pos maxrunning with hzero | hpos
    · exact Or.inl hzero
    · obtain ⟨after, hafter, hempty⟩ := exists_drain (q.add (some cookie)) (hsame ▸ hpos)
      have htotal := hpaid after (hafter _)
      have hnone : owed (ofCookie cookie) ((q.add (some cookie)).run after).1 = 0 := by
        obtain ⟨hrun, hwait⟩ := and_eq_true_iff.mp hempty
        rw [owed, isEmpty_iff.mp hrun, isEmpty_iff.mp hwait]
        rfl
      have hle := htwice after (hafter _)
      exact Or.inr (by omega)
  · rintro (hzero | htwo) after hafter
    · rw [startsOf_eq_zero _ _ (hsame.trans hzero)]
      exact Nat.zero_le _
    · have htotal := hpaid after hafter
      omega

/-- The process with cookie 1 that is enqueued again comes to wait behind another one with its
cookie, and the next `add` marks that one. -/
theorem starts_three_times : ¬ ∀ (maxrunning : Nat) (before : List (Call Nat)) (cookie : Nat),
    ∀ after, .add (some cookie) ∉ after →
      startsOf (ofCookie cookie) ((((({ maxrunning } : WvSubProcQueue Nat).run before).1.add
        (some cookie)).run after).2) ≤ 2 := by
  intro h
  have hthree := h 1 [.add (some 1), .add (some 2), .add (some 1), .go, .add (some 1), .exit 0, .go]
    1 [.go, .exit 1, .go, .exit 3, .go, .exit 0, .go] (by decide)
  revert hthree
  decide

end WvSubProcQueue

end WvStreams
