import Mathlib.Data.List.Forall2
import WvStreams.Processes.SubProcQueue.Owed

/-!
# What a sync point waits for

An entry that is marked is enqueued again behind everything that waits when it finishes. So the
last marked entry is the one that runs last, and `add` makes its cookie come after everything that
is due if and only if that entry has the cookie (`comes_after_iff`): `Phase` is how its last run
gets to the front, and `Late` is how the last run of another cookie stays behind.
-/

namespace WvStreams

open List Happening Bool

namespace WvSubProcQueue

variable {κ : Type} {Allowed : Option κ → Prop}

/-! ## Due runs -/

/-- The runs that the entries will have, with those that have begun. -/
def due (sel : Option κ × Nat → Bool) (q : WvSubProcQueue κ) : Nat :=
  owed sel q + runs sel q.runq

def isFinish (sel : Option κ × Nat → Bool) : Happening κ → Bool
  | .finished cookie proc => sel (cookie, proc)
  | _ => false

def finishesOf (sel : Option κ × Nat → Bool) (log : List (Happening κ)) : Nat :=
  log.countP (isFinish sel)

section Due

variable (sel : Option κ × Nat → Bool)

theorem finishesOf_append (log log' : List (Happening κ)) :
    finishesOf sel (log ++ log') = finishesOf sel log + finishesOf sel log' := countP_append

theorem finishesOf_finished (e : Ent κ) :
    finishesOf sel [.finished e.cookie e.proc] = (sel e.key).toNat := by
  cases hkey : sel e.key with
  | true => exact countP_cons_of_pos hkey
  | false => exact countP_cons_of_neg (eq_false_iff.mp hkey)

theorem runs_finished {front back : List (Ent κ)} {e : Ent κ} (he : e.running = true) :
    (sel e.key).toNat + runs sel (front ++ e.finish :: back) = runs sel (front ++ e :: back) := by
  simp only [runs_append, runs_cons, he, key_finish, running_finish, Bool.and_true, Bool.and_false,
    Bool.toNat_false]
  omega

theorem due_of_small (hsel : ∀ cookie proc, Allowed cookie → sel (cookie, proc) = false)
    {q q' : WvSubProcQueue κ} {l : List (Happening κ)} (hsmall : Small Allowed q l q') :
    finishesOf sel l + due sel q' = due sel q := by
  have howed := owed_of_small sel hsel hsmall
  cases hsmall with
  | merged => exact Nat.zero_add _
  | marked cookie front e back h _ hwait _ he =>
    have hstart : startsOf sel [added (some cookie) q.count] = 0 := rfl
    have hfinish : finishesOf sel [added (some cookie) q.count] = 0 := rfl
    simp only [due]
    omega
  | appended cookie h =>
    have hstart : startsOf sel [added cookie q.count] = 0 := rfl
    have hfinish : finishesOf sel [added cookie q.count] = 0 := rfl
    simp only [due]
    omega
  | finished front e back hrun he =>
    have hstart : startsOf sel [finished e.cookie e.proc] = 0 := rfl
    have hfinish := finishesOf_finished sel e
    have hruns : _ + runs sel (front ++ e.finish :: back) = _ := runs_finished sel he
    simp only [due, hrun]
    omega
  | cleanup =>
    have hruns := runs_cleanup sel q.runq
    have hstart : startsOf sel ([] : List (Happening κ)) = 0 := rfl
    have hfinish : finishesOf sel ([] : List (Happening κ)) = 0 := rfl
    simp only [due, cleanup_runq]
    omega
  | started e waitq hwait =>
    have hstart := startsOf_started sel e
    have hfinish : finishesOf sel [started e.cookie e.proc] = 0 := rfl
    simp only [due, runs_append, runs_cons, runs_nil, key_start, running_start, Bool.and_true]
    omega

end Due

/-! ## Entries behind each other -/

theorem eq_of_append_eq_singleton {α : Type} {front back : List α} {a b : α}
    (h : front ++ a :: back = [b]) : front = [] ∧ a = b ∧ back = [] := by
  cases front with
  | nil => exact ⟨rfl, cons_eq_cons.mp h⟩
  | cons c front =>
    have hnil := (cons_eq_cons.mp h).2
    simp at hnil

/-- What `add` does to a waiting entry. -/
def Marks (e e' : Ent κ) : Prop := e' = e ∨ e' = e.mark

section Marks

variable (sel : Option κ × Nat → Bool) {e e' : Ent κ} {l l' : List (Ent κ)}

theorem Marks.key (h : Marks e e') : e'.key = e.key := by
  rcases h with rfl | rfl <;> rfl

theorem Marks.redo (h : Marks e e') (hredo : e.redo = true) : e'.redo = true := by
  rcases h with rfl | rfl
  · exact hredo
  · rfl

theorem waits_of_marks (h : Forall₂ Marks l l') : waits sel l' = waits sel l := by
  induction h with
  | nil => rfl
  | cons hmarks _ ih => rw [waits_cons, waits_cons, ih, hmarks.key]

theorem redos_of_marks (h : Forall₂ Marks l l') : redos sel l ≤ redos sel l' := by
  induction h with
  | nil => exact Nat.le_refl _
  | @cons e _ _ _ hmarks _ ih =>
    rw [redos_cons, redos_cons]
    rcases hmarks with rfl | rfl
    · exact Nat.add_le_add_right ih _
    · refine Nat.add_le_add ih ?_
      rw [key_mark, redo_mark, Bool.and_true]
      cases sel e.key <;> cases e.redo <;> decide

theorem marks_refl (l : List (Ent κ)) : Forall₂ Marks l l :=
  forall₂_same.mpr fun _ _ => .inl rfl

theorem exists_split {R : Ent κ → Ent κ → Prop} {front back : List (Ent κ)}
    (h : Forall₂ R (front ++ e :: back) l') : ∃ front' e' back', l' = front' ++ e' :: back' ∧
      Forall₂ R front front' ∧ R e e' ∧ Forall₂ R back back' := by
  induction front generalizing l' with
  | nil =>
    obtain ⟨e', back', he, hback, rfl⟩ := forall₂_cons_left_iff.mp h
    exact ⟨[], e', back', rfl, .nil, he, hback⟩
  | cons f front ih =>
    obtain ⟨f', rest, hf, hrest, rfl⟩ := forall₂_cons_left_iff.mp h
    obtain ⟨front', e', back', rfl, hfront, he, hback⟩ := ih hrest
    exact ⟨f' :: front', e', back', rfl, .cons hf hfront, he, hback⟩

end Marks

/-- The waiting entries stay where they are, and a new one comes last. -/
structure Grown (q q' : WvSubProcQueue κ) : Prop where
  runq : q'.runq = q.runq
  waitq : ∃ old new, q'.waitq = old ++ new ∧ List.Forall₂ Marks q.waitq old

/-! ## The last run of the cookie -/

/-- Selects the runs of one process. -/
def only [DecidableEq κ] (k k' : Option κ × Nat) : Bool := k' = k

variable [DecidableEq κ]

/-- The last run of the cookie is still to come, and of the `due` runs only as many are missing as
come before it or are that run itself. -/
inductive Phase (due : Option κ × Nat → Nat) (cookie : κ) (q : WvSubProcQueue κ)
    (log : List (Happening κ)) : Prop
  /-- It is the second run of a waiting entry. -/
  | marked (front : List (Ent κ)) (x : Ent κ) (back : List (Ent κ))
      (hwait : q.waitq = front ++ x :: back) (hx : x.cookie = some cookie) (hredo : x.redo = true)
      (h : ∀ k, due k ≤ finishesOf (only k) log + runs (only k) q.runq + redos (only k) q.runq +
        waits (only k) front + redos (only k) front + 2 * (only k x.key).toNat +
          waits (only k) back)
  /-- It comes after the run that has begun. -/
  | running (x : Ent κ) (hrun : q.runq = [x]) (hx : x.cookie = some cookie)
      (hredo : x.redo = true)
      (h : ∀ k, due k ≤ finishesOf (only k) log + runs (only k) q.runq +
        waits (only k) q.waitq + (only k x.key).toNat)
  /-- It is the next run of a waiting entry. -/
  | waiting (front : List (Ent κ)) (x : Ent κ) (back : List (Ent κ))
      (hwait : q.waitq = front ++ x :: back) (hx : x.cookie = some cookie)
      (h : ∀ k, due k ≤ finishesOf (only k) log + runs (only k) q.runq + waits (only k) front +
        (only k x.key).toNat)

variable {due : Option κ × Nat → Nat} {cookie : κ}

variable {log : List (Happening κ)} {q' : WvSubProcQueue κ} {front back : List (Ent κ)}

theorem Phase.of_grown {q : WvSubProcQueue κ} {l : List (Happening κ)}
    (h : Phase due cookie q log) (hgrown : Grown q q') (hl : ∀ sel, finishesOf sel l = 0) :
    Phase due cookie q' (log ++ l) := by
  obtain ⟨hrunq, old, new, hnew, hmarks⟩ := hgrown
  have hfinish : ∀ k, finishesOf (only k) (log ++ l) = finishesOf (only k) log := by
    intro k
    rw [finishesOf_append, hl, Nat.add_zero]
  cases h with
  | marked front x back hwait hx hredo h =>
    rw [hwait] at hmarks
    obtain ⟨front', x', back', rfl, hfront, hx', hback⟩ := exists_split hmarks
    refine .marked front' x' (back' ++ new) (by rw [hnew, append_assoc]; rfl) ?_
      (hx'.redo hredo) ?_
    · exact (congrArg Prod.fst hx'.key).trans hx
    · intro k
      have hk := h k
      have hredos := redos_of_marks (only k) hfront
      rw [hrunq, hfinish, hx'.key, waits_append, waits_of_marks _ hfront, waits_of_marks _ hback]
      omega
  | running x hrun hx hredo h =>
    refine .running x (hrunq.trans hrun) hx hredo fun k => ?_
    have hk := h k
    rw [hrunq, hfinish, hnew, waits_append, waits_of_marks _ hmarks]
    omega
  | waiting front x back hwait hx h =>
    rw [hwait] at hmarks
    obtain ⟨front', x', back', rfl, hfront, hx', hback⟩ := exists_split hmarks
    refine .waiting front' x' (back' ++ new) (by rw [hnew, append_assoc]; rfl) ?_ ?_
    · exact (congrArg Prod.fst hx'.key).trans hx
    · intro k
      rw [hrunq, hfinish, hx'.key, waits_of_marks _ hfront]
      exact h k

variable {q : WvSubProcQueue κ}

omit [DecidableEq κ] in
theorem grown_of_small {happening : Happening κ}
    (hsmall : Small Allowed q [happening] q') (hadded : ∃ c n, happening = .added c n) :
    Grown q q' ∧ ∀ sel, finishesOf sel [happening] = 0 := by
  obtain ⟨c, n, rfl⟩ := hadded
  refine ⟨?_, fun _ => rfl⟩
  cases hsmall with
  | merged => exact ⟨rfl, q.waitq, [], (append_nil _).symm, marks_refl _⟩
  | marked c front e back _ _ hwait =>
    refine ⟨rfl, front ++ e.mark :: back, [], (append_nil _).symm, ?_⟩
    rw [hwait]
    exact rel_append (marks_refl front) (.cons (.inr rfl) (marks_refl back))
  | appended => exact ⟨rfl, q.waitq, _, rfl, marks_refl _⟩

theorem Phase.of_finished (h : Phase due cookie q log) {e : Ent κ}
    (hrun : q.runq = front ++ e :: back) (he : e.running = true) :
    Phase due cookie { q with runq := front ++ e.finish :: back }
      (log ++ [.finished e.cookie e.proc]) := by
  have hfinish : ∀ k, finishesOf (only k) (log ++ [.finished e.cookie e.proc]) +
      runs (only k) (front ++ e.finish :: back) =
        finishesOf (only k) log + runs (only k) q.runq := by
    intro k
    have hruns : _ + runs (only k) (front ++ e.finish :: back) = _ := runs_finished (only k) he
    rw [finishesOf_append, finishesOf_finished, hrun, ← hruns, Nat.add_assoc]
  have hredos : ∀ k, redos (only k) (front ++ e.finish :: back) = redos (only k) q.runq := by
    intro k
    simp only [hrun, redos_append, redos_cons, key_finish, redo_finish]
  cases h with
  | marked first x rest hwait hx hredo h =>
    refine .marked first x rest hwait hx hredo fun k => ?_
    rw [hfinish, hredos]
    exact h k
  | running x hone hx hredo h =>
    obtain ⟨rfl, rfl, rfl⟩ := eq_of_append_eq_singleton (hrun.symm.trans hone)
    refine .running e.finish rfl hx hredo fun k => ?_
    rw [hfinish]
    exact h k
  | waiting first x rest hwait hx h =>
    refine .waiting first x rest hwait hx fun k => ?_
    rw [hfinish]
    exact h k

theorem Phase.of_cleanup (h : Phase due cookie q log) : Phase due cookie q.cleanup log := by
  cases h with
  | marked front x back hwait hx hredo h =>
    refine .marked front x (back ++ requeued q.runq) ?_ hx hredo fun k => ?_
    · rw [cleanup_waitq, hwait, append_assoc]
      rfl
    · have hk := h k
      have hredos := redos_cleanup (only k) q.runq
      rw [cleanup_runq, runs_cleanup, waits_append]
      omega
  | running x hrun hx hredo h =>
    cases hrunning : x.running with
    | true =>
      refine .running x ?_ hx hredo fun k => ?_
      · rw [cleanup_runq, hrun, filter_cons_of_pos hrunning, filter_nil]
      · have hk := h k
        rw [cleanup_runq, runs_cleanup, cleanup_waitq, waits_append]
        omega
    | false =>
      refine .waiting q.waitq x.again [] ?_ hx fun k => ?_
      · rw [cleanup_waitq, hrun, requeued_cons, if_pos ⟨hrunning, hredo⟩]
        rfl
      · rw [cleanup_runq, runs_cleanup]
        exact h k
  | waiting front x back hwait hx h =>
    refine .waiting front x (back ++ requeued q.runq) ?_ hx fun k => ?_
    · rw [cleanup_waitq, hwait, append_assoc]
      rfl
    · rw [cleanup_runq, runs_cleanup]
      exact h k

theorem Phase.of_started (h : Phase due cookie q log) {e : Ent κ}
    {waitq : List (Ent κ)} (hwait : q.waitq = e :: waitq) (hsync : e.cookie ≠ none → q.runq = [])
    (hcookie : ∀ f ∈ q.runq, f.cookie = none) :
    Phase due cookie { q with runq := q.runq ++ [e.start], waitq }
      (log ++ [.started e.cookie e.proc]) ∨ (e.cookie = some cookie ∧
          ∀ k, due k ≤ finishesOf (only k) log + (only k e.key).toNat) := by
  have hfinish : ∀ k, finishesOf (only k) (log ++ [.started e.cookie e.proc]) =
      finishesOf (only k) log := by
    intro k
    rw [finishesOf_append]
    rfl
  have hruns : ∀ k, runs (only k) (q.runq ++ [e.start]) =
      runs (only k) q.runq + (only k e.key).toNat := by
    intro k
    simp only [runs_append, runs_cons, runs_nil, key_start, running_start, Bool.and_true,
      Nat.zero_add]
  cases h with
  | marked front x back hwait' hx hredo h =>
    left
    cases front with
    | nil =>
      obtain ⟨rfl, rfl⟩ := cons_eq_cons.mp (hwait.symm.trans hwait')
      have hrun := hsync (hx ▸ Option.some_ne_none _)
      refine .running e.start ?_ hx hredo fun k => ?_
      · rw [hrun, nil_append]
      · have hk := h k
        have hr := hruns k
        rw [hrun] at hk hr
        simp only [hfinish, hrun, hr, key_start, runs_nil, redos_nil, waits_nil] at hk ⊢
        omega
    | cons f front =>
      obtain ⟨rfl, rfl⟩ := cons_eq_cons.mp (hwait.symm.trans hwait')
      refine .marked front x back rfl hx hredo fun k => ?_
      have hk := h k
      simp only [hfinish, hruns, redos_append, redos_cons, redos_nil, waits_cons, key_start,
        redo_start] at hk ⊢
      omega
  | running x hrun hx =>
    have hnone := hcookie x (hrun ▸ mem_cons_self)
    rw [hx] at hnone
    cases hnone
  | waiting front x back hwait' hx h =>
    cases front with
    | nil =>
      right
      obtain ⟨rfl, rfl⟩ := cons_eq_cons.mp (hwait.symm.trans hwait')
      refine ⟨hx, fun k => ?_⟩
      have hk := h k
      rwa [hsync (hx ▸ Option.some_ne_none _)] at hk
    | cons f front =>
      left
      obtain ⟨rfl, rfl⟩ := cons_eq_cons.mp (hwait.symm.trans hwait')
      refine .waiting front x back rfl hx fun k => ?_
      have hk := h k
      simp only [hfinish, hruns, waits_cons] at hk ⊢
      omega

/-- Some process with the cookie was started after every run that is due in `q`, that of the
process itself apart. -/
def ComesAfter (q : WvSubProcQueue κ) (cookie : κ) (log : List (Happening κ)) : Prop :=
  ∃ before proc after, log = before ++ .started (some cookie) proc :: after ∧
    ∀ k, WvSubProcQueue.due (only k) q ≤
      finishesOf (only k) before + if k = (some cookie, proc) then 1 else 0

theorem ComesAfter.append (h : ComesAfter q cookie log)
    (l : List (Happening κ)) : ComesAfter q cookie (log ++ l) := by
  obtain ⟨before, proc, after, rfl, hdue⟩ := h
  exact ⟨before, proc, after ++ l, append_assoc _ _ _, hdue⟩

theorem toNat_only (k k' : Option κ × Nat) : (only k k').toNat = if k = k' then 1 else 0 := by
  unfold only
  by_cases heq : k' = k
  · rw [decide_eq_true heq, if_pos heq.symm]
    rfl
  · rw [decide_eq_false heq, if_neg fun h => heq h.symm]
    rfl

/-- The process is started, or its last run is still to come. -/
def Coming (q₀ : WvSubProcQueue κ) (cookie : κ) (q : WvSubProcQueue κ)
    (log : List (Happening κ)) : Prop :=
  ComesAfter q₀ cookie log ∨ Phase (fun k => WvSubProcQueue.due (only k) q₀) cookie q log

theorem Coming.of_small {q₀ q : WvSubProcQueue κ} {l : List (Happening κ)}
    (h : Coming q₀ cookie q log) (hsmall : Small Allowed q l q') :
    Coming q₀ cookie q' (log ++ l) := by
  rcases h with hdone | hphase
  · exact .inl (hdone.append l)
  · cases hsmall with
    | merged c front e ha hwait hfront he =>
      obtain ⟨hgrown, hl⟩ := grown_of_small (.merged c front e ha hwait hfront he) ⟨_, _, rfl⟩
      exact .inr (hphase.of_grown hgrown hl)
    | marked c front e back ha hback hwait hfront he =>
      obtain ⟨hgrown, hl⟩ := grown_of_small (.marked c front e back ha hback hwait hfront he)
        ⟨_, _, rfl⟩
      exact .inr (hphase.of_grown hgrown hl)
    | appended c ha hnew =>
      obtain ⟨hgrown, hl⟩ := grown_of_small (.appended c ha hnew) ⟨_, _, rfl⟩
      exact .inr (hphase.of_grown hgrown hl)
    | finished front e back hrun he => exact .inr (hphase.of_finished hrun he)
    | cleanup =>
      rw [append_nil]
      exact .inr hphase.of_cleanup
    | started e waitq hwait _ hsync hcookie =>
      rcases hphase.of_started hwait hsync hcookie with hphase | ⟨he, hdue⟩
      · exact .inr hphase
      · refine .inl ⟨log, e.proc, [], by rw [he], fun k => ?_⟩
        have hk := hdue k
        rwa [toNat_only, Ent.key, he] at hk

/-! ## The last marked entry -/

def tail (cookie : κ) (q : WvSubProcQueue κ) : List (Ent κ) :=
  if behind cookie q = [] then q.runq ++ q.waitq else behind cookie q

/-- The last marked entry of the tail, if there is one, has the cookie. -/
def ComesLast (cookie : κ) (q : WvSubProcQueue κ) : Prop :=
  ∀ e, (tail cookie q).reverse.find? Ent.redo = some e → e.cookie = some cookie

omit [DecidableEq κ] in
theorem find?_reverse_eq_some {l : List (Ent κ)} {e : Ent κ}
    (h : l.reverse.find? Ent.redo = some e) :
    ∃ front back, l = front ++ e :: back ∧ e.redo = true ∧ ∀ f ∈ back, f.redo = false := by
  obtain ⟨hredo, before, after, hl, hbefore⟩ := find?_eq_some_iff_append.mp h
  refine ⟨after.reverse, before.reverse, ?_, hredo, fun f hf => ?_⟩
  · rw [← reverse_reverse l, hl]
    simp
  · simpa using hbefore f (mem_reverse.mp hf)

variable {q : WvSubProcQueue κ}

omit [DecidableEq κ] in
theorem Sound.split (h : q.Sound) {e : Ent κ}
    (hsplit : q.runq ++ q.waitq = front ++ e :: back) (he : e.cookie ≠ none) :
    (q.runq = [e] ∧ q.waitq = back) ∨
      ∃ front', front = q.runq ++ front' ∧ q.waitq = front' ++ e :: back := by
  rcases append_eq_append_iff.mp hsplit with ⟨front', rfl, hwait⟩ | ⟨rest, hrun, hrest⟩
  · exact .inr ⟨front', rfl, hwait⟩
  · cases rest with
    | nil => exact .inr ⟨[], by rw [hrun, append_nil, append_nil], hrest.symm⟩
    | cons f rest =>
      obtain ⟨rfl, rfl⟩ := cons_eq_cons.mp hrest
      have hone := h.alone e (hrun ▸ mem_append_right _ mem_cons_self) he
      have hlength := congrArg length (hone.symm.trans hrun)
      simp only [length_append, length_cons, length_nil] at hlength
      have hnil : rest = [] := length_eq_zero_iff.mp (by omega)
      exact .inl ⟨hone, by rw [hnil]; rfl⟩

theorem redos_eq_zero_of_forall (k : Option κ × Nat) {l : List (Ent κ)}
    (h : ∀ f ∈ l, f.redo = false) : redos (only k) l = 0 :=
  (redos_eq_zero _ _).mpr fun f hf _ => h f hf

theorem Sound.phase (h : q.Sound) {x : Ent κ}
    (hsplit : q.runq ++ q.waitq = front ++ x :: back) (hx : x.cookie = some cookie)
    (hredo : x.redo = true) (hback : ∀ f ∈ back, f.redo = false)
    (hdue : ∀ k, due k ≤ WvSubProcQueue.due (only k) q) : Phase due cookie q [] := by
  rcases h.split hsplit (hx ▸ Option.some_ne_none _) with ⟨hrun, hwait⟩ | ⟨front', -, hwait⟩
  · refine .running x hrun hx hredo fun k => ?_
    have hk := hdue k
    have hnone := redos_eq_zero_of_forall k hback
    simp only [WvSubProcQueue.due, owed, hwait, hnone, hrun, redos_cons, redos_nil, hredo,
      Bool.and_true] at hk ⊢
    omega
  · refine .marked front' x back hwait hx hredo fun k => ?_
    have hk := hdue k
    have hnone := redos_eq_zero_of_forall k hback
    simp only [WvSubProcQueue.due, owed, hwait, hnone, redos_append, redos_cons, waits_append,
      waits_cons, hredo, Bool.and_true] at hk ⊢
    omega

theorem phase_of_unmarked {x : Ent κ} (hwait : q.waitq = front ++ [x])
    (hx : x.cookie = some cookie) (hredo : ∀ f ∈ q.runq ++ q.waitq, f.redo = false)
    (hdue : ∀ k, due k ≤ WvSubProcQueue.due (only k) q) : Phase due cookie q [] := by
  refine .waiting front x [] hwait hx fun k => ?_
  have hk := hdue k
  have hrunq : redos (only k) q.runq = 0 :=
    redos_eq_zero_of_forall k fun f hf => hredo f (mem_append_left _ hf)
  have hwaitq : redos (only k) q.waitq = 0 :=
    redos_eq_zero_of_forall k fun f hf => hredo f (mem_append_right _ hf)
  simp only [WvSubProcQueue.due, owed, hrunq, hwaitq] at hk
  simp only [hwait, waits_append, waits_cons, waits_nil] at hk
  omega

theorem Tidy.phase_add (h : q.Tidy) (hlast : ComesLast cookie q) :
    Phase (fun k => WvSubProcQueue.due (only k) q) cookie (q.add (some cookie)) [] := by
  have hsmall : Small (fun _ => True) q _ (q.add (some cookie)) := small_add q trivial
  have hsound := h.sound.of_small hsmall
  rw [ComesLast] at hlast
  generalize q.add (some cookie) = r at hsmall hsound
  cases hfind : (tail cookie q).reverse.find? Ent.redo with
  | some x =>
    have hx := hlast x hfind
    obtain ⟨front, back, htail, hredo, hback⟩ := find?_reverse_eq_some hfind
    cases hsmall with
    | merged _ first e _ hwait hfirst he =>
      rw [tail, if_pos (behind_eq hwait hfirst he)] at htail
      exact hsound.phase htail hx hredo hback fun k => Nat.le_refl _
    | marked _ first e rest _ hrest hwait hfirst he =>
      have hbehind := behind_eq hwait hfirst he
      rw [tail, if_neg (hbehind ▸ hrest), hbehind] at htail
      have hsplit : q.runq ++ (first ++ e.mark :: rest) =
          (q.runq ++ (first ++ e.mark :: front)) ++ x :: back := by simp [htail]
      refine hsound.phase hsplit hx hredo hback fun k => ?_
      simp only [WvSubProcQueue.due, owed, hwait, waits_append, waits_cons, redos_append,
        redos_cons, key_mark, redo_mark, Bool.and_true]
      cases only k e.key <;> cases e.redo <;> simp
    | appended _ _ hnew =>
      rw [tail, if_pos (behind_of_forall_ne (hnew cookie rfl))] at htail
      have hsplit : q.runq ++ (q.waitq ++ [{ cookie := some cookie, proc := q.count }]) =
          front ++ x :: (back ++ [{ cookie := some cookie, proc := q.count }]) := by
        rw [← append_assoc, htail, append_assoc]
        rfl
      refine hsound.phase hsplit hx hredo ?_ fun k => ?_
      · exact forall_mem_append.mpr ⟨hback, forall_mem_singleton.mpr rfl⟩
      · simp only [WvSubProcQueue.due, owed, waits_append, redos_append]
        omega
  | none =>
    have hnone : ∀ f ∈ tail cookie q, f.redo = false := by
      intro f hf
      exact eq_false_iff.mpr (find?_eq_none.mp hfind f (mem_reverse.mpr hf))
    cases hsmall with
    | merged _ first e _ hwait hfirst he =>
      rw [tail, if_pos (behind_eq hwait hfirst he)] at hnone
      exact phase_of_unmarked hwait he hnone fun k => Nat.le_refl _
    | marked _ first e rest _ hrest hwait hfirst he =>
      have hbehind := behind_eq hwait hfirst he
      rw [tail, if_neg (hbehind ▸ hrest), hbehind] at hnone
      have hsplit : q.runq ++ (first ++ e.mark :: rest) = (q.runq ++ first) ++ e.mark :: rest :=
        (append_assoc _ _ _).symm
      refine hsound.phase hsplit he rfl hnone fun k => ?_
      simp only [WvSubProcQueue.due, owed, hwait, waits_append, waits_cons, redos_append,
        redos_cons, key_mark, redo_mark, Bool.and_true]
      cases only k e.key <;> cases e.redo <;> simp
    | appended _ _ hnew =>
      rw [tail, if_pos (behind_of_forall_ne (hnew cookie rfl))] at hnone
      refine phase_of_unmarked rfl rfl ?_ fun k => ?_
      · intro f hf
        rw [← append_assoc] at hf
        rcases mem_append.mp hf with hf | hf
        · exact hnone f hf
        · rw [mem_singleton.mp hf]
      · simp only [WvSubProcQueue.due, owed, waits_append, redos_append]
        omega

/-! ## The last run of another cookie -/

/-- The last run of the process is still to come, and no run of the cookie comes after it. -/
inductive Late (cookie : κ) (k : Option κ × Nat) (q : WvSubProcQueue κ) : Prop
  | marked (front : List (Ent κ)) (y : Ent κ) (back : List (Ent κ))
      (hwait : q.waitq = front ++ y :: back) (hy : y.key = k) (hredo : y.redo = true)
      (hback : ∀ f ∈ back, f.cookie = some cookie → f.redo = false)
  | running (y : Ent κ) (hrun : q.runq = [y]) (hy : y.key = k) (hredo : y.redo = true)
      (hwait : ∀ f ∈ q.waitq, f.cookie = some cookie → f.redo = false)
  | waiting (front : List (Ent κ)) (y : Ent κ) (back : List (Ent κ))
      (hwait : q.waitq = front ++ y :: back) (hy : y.key = k)
      (hrun : ∀ f ∈ q.runq, f.cookie = some cookie → f.redo = false)
      (hfront : ∀ f ∈ front, f.cookie = some cookie → f.redo = false)
      (hback : ∀ f ∈ back, f.cookie ≠ some cookie)
  /-- The last run has begun. -/
  | past (howed : owed (ofCookie cookie) q = 0)

theorem Late.due_pos {k : Option κ × Nat} (h : Late cookie k q) :
    0 < WvSubProcQueue.due (only k) q ∨ owed (ofCookie cookie) q = 0 := by
  have honly : only k k = true := decide_eq_true rfl
  cases h with
  | marked front y back hwait hy =>
    left
    simp only [WvSubProcQueue.due, owed, hwait, waits_append, waits_cons, hy, honly,
      Bool.toNat_true]
    omega
  | running y hrun hy hredo =>
    left
    simp only [WvSubProcQueue.due, owed, hrun, redos_cons, hy, honly, hredo, Bool.and_true,
      Bool.toNat_true]
    omega
  | waiting front y back hwait hy =>
    left
    simp only [WvSubProcQueue.due, owed, hwait, waits_append, waits_cons, hy, honly,
      Bool.toNat_true]
    omega
  | past howed => exact .inr howed

theorem owed_eq_zero_of_small {l : List (Happening κ)}
    (howed : owed (ofCookie cookie) q = 0) (hsmall : Small (fun _ => False) q l q') :
    owed (ofCookie cookie) q' = 0 := by
  have hpaid := owed_of_small (ofCookie cookie) (fun _ _ h => h.elim) hsmall
  omega

section Late

variable {k : Option κ × Nat} {q : WvSubProcQueue κ}

theorem Late.of_finished {front back : List (Ent κ)} {e : Ent κ} (h : Late cookie k q)
    (hrun : q.runq = front ++ e :: back) (he : e.running = true)
    (hfirst : ∀ f ∈ front, f.running = true → f.proc ≠ e.proc) :
    Late cookie k { q with runq := front ++ e.finish :: back } := by
  cases h with
  | marked first y rest hwait hy hredo hback => exact .marked first y rest hwait hy hredo hback
  | running y hone hy hredo hwait =>
    obtain ⟨rfl, rfl, rfl⟩ := eq_of_append_eq_singleton (hrun.symm.trans hone)
    exact .running e.finish rfl hy hredo hwait
  | waiting first y rest hwait hy hrunq hfront hback =>
    refine .waiting first y rest hwait hy ?_ hfront hback
    intro f hf
    rw [hrun] at hrunq
    simp only [mem_append, mem_cons] at hf hrunq
    rcases hf with hf | rfl | hf
    · exact hrunq f (.inl hf)
    · exact hrunq e (.inr (.inl rfl))
    · exact hrunq f (.inr (.inr hf))
  | past howed => exact .past (owed_eq_zero_of_small howed (.finished front e back hrun he hfirst))

theorem Late.of_cleanup (h : Late cookie k q) : Late cookie k q.cleanup := by
  cases h with
  | marked front y back hwait hy hredo hback =>
    refine .marked front y (back ++ requeued q.runq) ?_ hy hredo ?_
    · rw [cleanup_waitq, hwait, append_assoc]
      rfl
    · intro f hf hcookie
      rcases mem_append.mp hf with hf | hf
      · exact hback f hf hcookie
      · exact redo_of_mem_requeued hf
  | running y hrun hy hredo hwait =>
    cases hrunning : y.running with
    | true =>
      refine .running y ?_ hy hredo ?_
      · rw [cleanup_runq, hrun, filter_cons_of_pos hrunning, filter_nil]
      · intro f hf hcookie
        rcases mem_append.mp hf with hf | hf
        · exact hwait f hf hcookie
        · exact redo_of_mem_requeued hf
    | false =>
      refine .waiting q.waitq y.again [] ?_ hy ?_ hwait nofun
      · rw [cleanup_waitq, hrun, requeued_cons, if_pos ⟨hrunning, hredo⟩]
        rfl
      · intro f hf
        rw [cleanup_runq, hrun, filter_cons_of_neg (eq_false_iff.mp hrunning)] at hf
        exact absurd hf not_mem_nil
  | waiting front y back hwait hy hrun hfront hback =>
    refine .waiting front y (back ++ requeued q.runq) ?_ hy ?_ hfront ?_
    · rw [cleanup_waitq, hwait, append_assoc]
      rfl
    · exact fun f hf => hrun f (mem_of_mem_filter hf)
    · intro f hf
      rcases mem_append.mp hf with hf | hf
      · exact hback f hf
      · -- only what is marked is enqueued again
        obtain ⟨g, hg, rfl⟩ := mem_map.mp hf
        obtain ⟨hg, hfinished⟩ := mem_filter.mp hg
        intro hcookie
        rw [hrun g hg hcookie, Bool.and_false] at hfinished
        cases hfinished
  | past howed => exact .past (owed_eq_zero_of_small howed .cleanup)

theorem Late.of_started {e : Ent κ} {waitq : List (Ent κ)} (hk : k.1 ≠ some cookie)
    (hnone : k.1 ≠ none) (h : Late cookie k q) (hwait : q.waitq = e :: waitq)
    (hmax : q.runq.length < q.maxrunning) (hsync : e.cookie ≠ none → q.runq = [])
    (hcookie : ∀ f ∈ q.runq, f.cookie = none) :
    Late cookie k { q with runq := q.runq ++ [e.start], waitq } := by
  cases h with
  | marked front y back hwait' hy hredo hback =>
    cases front with
    | nil =>
      obtain ⟨rfl, rfl⟩ := cons_eq_cons.mp (hwait.symm.trans hwait')
      have he : e.cookie = k.1 := congrArg Prod.fst hy
      refine .running e.start ?_ hy hredo hback
      rw [hsync (he ▸ hnone), nil_append]
    | cons f front =>
      obtain ⟨rfl, rfl⟩ := cons_eq_cons.mp (hwait.symm.trans hwait')
      exact .marked front y back rfl hy hredo hback
  | running y hrun hy =>
    have hplain := hcookie y (hrun ▸ mem_cons_self)
    have he : y.cookie = k.1 := congrArg Prod.fst hy
    exact absurd (he.symm.trans hplain) hnone
  | waiting front y back hwait' hy hrun hfront hback =>
    cases front with
    | nil =>
      obtain ⟨rfl, rfl⟩ := cons_eq_cons.mp (hwait.symm.trans hwait')
      have he : e.cookie = k.1 := congrArg Prod.fst hy
      have hother : ofCookie cookie e.key = false :=
        eq_false_iff.mpr fun hkey => hk (he ▸ ofCookie_key.mp hkey)
      have hwaits : waits (ofCookie cookie) waitq = 0 := (waits_eq_zero _ _).mpr fun f hf =>
        eq_false_iff.mpr fun hkey => hback f hf (ofCookie_key.mp hkey)
      have hredos := redos_le_waits (ofCookie cookie) waitq
      refine .past ?_
      simp only [owed, hwaits, hsync (he ▸ hnone), nil_append, redos_cons, redos_nil,
        key_start, hother, Bool.false_and, Bool.toNat_false]
      omega
    | cons f front =>
      obtain ⟨rfl, rfl⟩ := cons_eq_cons.mp (hwait.symm.trans hwait')
      refine .waiting front y back rfl hy ?_ (fun g hg => hfront g (mem_cons_of_mem _ hg))
        hback
      exact forall_mem_append.mpr ⟨hrun, forall_mem_singleton.mpr (hfront e mem_cons_self)⟩
  | past howed => exact .past (owed_eq_zero_of_small howed (.started e waitq hwait hmax hsync hcookie))

theorem Late.of_small {q' : WvSubProcQueue κ} {l : List (Happening κ)} (hk : k.1 ≠ some cookie)
    (hnone : k.1 ≠ none) (h : Late cookie k q) (hsmall : Small (fun _ => False) q l q') :
    Late cookie k q' := by
  cases hsmall with
  | merged _ _ _ h | marked _ _ _ _ h | appended _ h => exact h.elim
  | finished front e back hrun he hfirst => exact h.of_finished hrun he hfirst
  | cleanup => exact h.of_cleanup
  | started e waitq hwait hmax hsync hcookie =>
    exact h.of_started hk hnone hwait hmax hsync hcookie

end Late

variable {q : WvSubProcQueue κ}

theorem Sound.late (h : q.Sound) {y : Ent κ}
    (hsplit : q.runq ++ q.waitq = front ++ y :: back) (hy : y.cookie ≠ none)
    (hredo : y.redo = true) (hback : ∀ f ∈ back, f.redo = false) : Late cookie y.key q := by
  rcases h.split hsplit hy with ⟨hrun, hwait⟩ | ⟨front', -, hwait⟩
  · exact .running y hrun rfl hredo fun f hf _ => hback f (hwait ▸ hf)
  · exact .marked front' y back hwait rfl hredo fun f hf _ => hback f hf

theorem mem_of_mem_tail {e : Ent κ} (h : e ∈ tail cookie q) : e ∈ q.runq ++ q.waitq := by
  unfold tail at h
  split at h
  · exact h
  · exact List.mem_append_right _
      ((List.dropWhile_suffix _).subset (List.mem_of_mem_tail h))

theorem Sound.late_add (h : q.Sound) (honce : q.Once)
    (hlast : ¬ ComesLast cookie q) : ∃ k : Option κ × Nat, k.1 ≠ some cookie ∧ k.1 ≠ none ∧
      Late cookie k (q.add (some cookie)) ∧
        WvSubProcQueue.due (only k) (q.add (some cookie)) = WvSubProcQueue.due (only k) q := by
  rw [ComesLast] at hlast
  push Not at hlast
  obtain ⟨y, hfind, hy⟩ := hlast
  obtain ⟨front, back, htail, hredo, hback⟩ := find?_reverse_eq_some hfind
  have hmem : y ∈ q.runq ++ q.waitq :=
    mem_of_mem_tail (htail ▸ mem_append_right _ mem_cons_self)
  have hnone : y.cookie ≠ none := by
    intro hnone
    rw [honce y hmem hnone] at hredo
    cases hredo
  have hsmall : Small (fun c => c = some cookie) q _ (q.add (some cookie)) := small_add q rfl
  have hsound := h.of_small hsmall
  have hdue := due_of_small (only y.key) (fun c proc hc => decide_eq_false fun heq =>
    hy ((congrArg Prod.fst heq).symm.trans hc)) hsmall
  refine ⟨y.key, hy, hnone, ?_, (Nat.zero_add _).symm.trans hdue⟩
  generalize q.add (some cookie) = r at hsmall hsound
  cases hsmall with
  | merged _ first e _ hwait hfirst he =>
    rw [tail, if_pos (behind_eq hwait hfirst he)] at htail
    exact hsound.late htail hnone hredo hback
  | marked _ first e rest _ hrest hwait hfirst he =>
    have hbehind := behind_eq hwait hfirst he
    rw [tail, if_neg (hbehind ▸ hrest), hbehind] at htail
    have hsplit : q.runq ++ (first ++ e.mark :: rest) =
        (q.runq ++ (first ++ e.mark :: front)) ++ y :: back := by simp [htail]
    exact hsound.late hsplit hnone hredo hback
  | appended _ _ hnew =>
    rw [tail, if_pos (behind_of_forall_ne (hnew cookie rfl))] at htail
    have hsplit : q.runq ++ (q.waitq ++ [{ cookie := some cookie, proc := q.count }]) =
        front ++ y :: (back ++ [{ cookie := some cookie, proc := q.count }]) := by
      rw [← append_assoc, htail, append_assoc]
      rfl
    refine hsound.late hsplit hnone hredo ?_
    exact forall_mem_append.mpr ⟨hback, forall_mem_singleton.mpr rfl⟩

/-- What holds in a run that does not meet the condition. -/
structure Missed (q₀ : WvSubProcQueue κ) (cookie : κ) (k : Option κ × Nat) (q : WvSubProcQueue κ)
    (log : List (Happening κ)) : Prop where
  late : Late cookie k q
  due : finishesOf (only k) log + WvSubProcQueue.due (only k) q = WvSubProcQueue.due (only k) q₀
  never : ¬ ComesAfter q₀ cookie log

theorem Missed.of_small {q₀ q : WvSubProcQueue κ} {k : Option κ × Nat} {l : List (Happening κ)}
    (hk : k.1 ≠ some cookie) (hnone : k.1 ≠ none) (h : Missed q₀ cookie k q log)
    (hsmall : Small (fun _ => False) q l q') : Missed q₀ cookie k q' (log ++ l) := by
  refine ⟨h.late.of_small hk hnone hsmall, ?_, ?_⟩
  · have hdue := due_of_small (only k) (fun _ _ h => h.elim) hsmall
    have hbefore := h.due
    rw [finishesOf_append]
    omega
  · rcases log_of_small hsmall with rfl | ⟨happening, rfl⟩
    · rw [append_nil]
      exact h.never
    · rintro ⟨before, proc, after, hlog, hdue⟩
      rcases eq_nil_or_concat' after with rfl | ⟨after, last, rfl⟩
      · -- the start happens while the last run of the other process is due
        obtain ⟨rfl, hhappening⟩ := append_inj' hlog rfl
        have hstarted := singleton_inj.mp hhappening
        have hk' := hdue k
        rw [if_neg fun heq => hk (congrArg Prod.fst heq)] at hk'
        have hbefore := h.due
        have howed : owed (ofCookie cookie) q = 0 := by
          rcases h.late.due_pos with hpos | howed
          · omega
          · exact howed
        have hpaid := owed_of_small (ofCookie cookie) (fun _ _ h => h.elim) hsmall
        have hone : startsOf (ofCookie cookie) [happening] = 1 := by
          rw [hstarted]
          exact countP_cons_of_pos (decide_eq_true rfl)
        omega
      · refine h.never ⟨before, proc, after, ?_, hdue⟩
        rw [← cons_append, ← append_assoc] at hlog
        exact (append_inj' hlog rfl).1

/-! ## Every run -/

theorem once_run (maxrunning : Nat) (calls : List (Call κ)) :
    (({ maxrunning } : WvSubProcQueue κ).run calls).1.Once :=
  (steady_run maxrunning calls).order.once

theorem not_isempty_of_maxrunning_eq_zero (hmax : q.maxrunning = 0)
    (hwait : q.waitq ≠ []) (calls : List (Call κ)) : (q.run calls).1.isempty = false := by
  have hstep : ∀ (r : WvSubProcQueue κ) (log l : List (Happening κ)) r',
      r.maxrunning = 0 ∧ r.waitq ≠ [] → Small (fun _ => True) r l r' →
        r'.maxrunning = 0 ∧ r'.waitq ≠ [] := by
    intro r log l r' h hsmall
    refine ⟨(maxrunning_of_small hsmall).trans h.1, ?_⟩
    cases hsmall with
    | merged => exact h.2
    | marked | appended => simp
    | finished => exact h.2
    | cleanup =>
      rw [cleanup_waitq]
      exact append_ne_nil_of_left_ne_nil h.2 _
    | started e waitq _ hlt =>
      rw [h.1] at hlt
      exact absurd hlt (Nat.not_lt_zero _)
  have hkept := (run_induct hstep ⟨hmax, hwait⟩ calls fun _ _ => trivial).2
  rw [isempty, and_eq_false_iff]
  exact .inr (eq_false_iff.mpr fun hnil => hkept (isEmpty_iff.mp hnil))

theorem isempty_of_phase (h : Phase due cookie q log) : q.isempty = false := by
  cases h with
  | marked front x back hwait => simp [isempty, hwait]
  | running x hrun => simp [isempty, hrun]
  | waiting front x back hwait => simp [isempty, hwait]

theorem waitq_add_ne_nil (q : WvSubProcQueue κ) : (q.add (some cookie)).waitq ≠ [] := by
  have hsmall : Small (fun _ => True) q _ (q.add (some cookie)) := small_add q trivial
  generalize q.add (some cookie) = r at hsmall
  cases hsmall with
  | merged _ front e _ hwait => simp [hwait]
  | marked => simp
  | appended => simp

/-- Whenever the queue is drained after an `add` of a cookie, one of its processes was started
after everything that was due, if and only if the last marked entry of the tail has the cookie. -/
theorem comes_after_iff (maxrunning : Nat) (before : List (Call κ)) (cookie : κ) :
    let q := (({ maxrunning } : WvSubProcQueue κ).run before).1
    (∀ after, ((q.add (some cookie)).run after).1.isempty = true →
      ComesAfter q cookie ((q.add (some cookie)).run after).2) ↔
        maxrunning = 0 ∨ ComesLast cookie q := by
  intro q
  have htidy : q.Tidy := tidy_run maxrunning before
  have hsame : (q.add (some cookie)).maxrunning = maxrunning := by
    have hsmall : Small (fun _ => True) q _ (q.add (some cookie)) := small_add q trivial
    exact (maxrunning_of_small hsmall).trans (maxrunning_run _ before)
  constructor
  · intro hafter
    rcases Nat.eq_zero_or_pos maxrunning with hzero | hpos
    · exact Or.inl hzero
    · right
      by_contra hlast
      obtain ⟨k, hk, hnone, hlate, hdue⟩ := htidy.sound.late_add (once_run maxrunning before) hlast
      obtain ⟨calls, hcalls, hempty⟩ := exists_drain (q.add (some cookie)) (hsame ▸ hpos)
      have hstart : Missed q cookie k (q.add (some cookie)) [] := by
        refine ⟨hlate, (Nat.zero_add _).trans hdue, ?_⟩
        rintro ⟨first, proc, rest, hlog, -⟩
        exact absurd hlog (by simp)
      have hmissed := run_induct (fun _ _ _ _ h hsmall => h.of_small hk hnone hsmall) hstart
        calls fun c hc => (hcalls c hc).elim
      exact hmissed.never (hafter calls hempty)
  · rintro (hzero | hlast) after hempty
    · rw [not_isempty_of_maxrunning_eq_zero (hsame.trans hzero) (waitq_add_ne_nil q)] at hempty
      cases hempty
    · have hstep : ∀ (r : WvSubProcQueue κ) log l r', Coming q cookie r log →
          Small (fun _ => True) r l r' → Coming q cookie r' (log ++ l) :=
        fun _ _ _ _ h hsmall => h.of_small hsmall
      have hstart : Coming q cookie (q.add (some cookie)) [] := Or.inr (htidy.phase_add hlast)
      rcases run_induct hstep hstart after fun _ _ => trivial with hdone | hphase
      · exact hdone
      · rw [isempty_of_phase hphase] at hempty
        cases hempty

/-- Cookie 2 waits in front of cookie 1 and is marked, so that it runs again behind the entry that
`add` takes for the last one. -/
theorem comes_before_repeat : ¬ ∀ (maxrunning : Nat) (before : List (Call Nat)) (cookie : Nat),
    let q := (({ maxrunning } : WvSubProcQueue Nat).run before).1
    ∀ after, ((q.add (some cookie)).run after).1.isempty = true →
      ComesAfter q cookie ((q.add (some cookie)).run after).2 := by
  intro h
  obtain ⟨before, proc, after, hlog, hdue⟩ := h 1 [.add (some 2), .add (some 1), .add (some 2)] 1
    [.go, .exit 0, .go, .exit 1, .go, .exit 0, .go] (by decide)
  have hrun : [started (some 2) 0, .finished (some 2) 0, .started (some 1) 1,
      .finished (some 1) 1, .started (some 2) 0, .finished (some 2) 0] =
        before ++ .started (some 1) proc :: after := hlog
  have hrepeat := hdue (some 2, 0)
  rw [if_neg (by simp)] at hrepeat
  -- cookie 1 is started in the middle, and only there
  rcases before with _ | ⟨a, _ | ⟨b, _ | ⟨c, _ | ⟨d, _ | ⟨e, _ | ⟨f, before⟩⟩⟩⟩⟩⟩
  case cons.cons.nil =>
    injection hrun with ha hrun
    injection hrun with hb
    subst ha hb
    revert hrepeat
    decide
  all_goals simp at hrun

end WvSubProcQueue

end WvStreams
