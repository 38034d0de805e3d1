import Mathlib.Data.List.Nodup
import WvStreams.Processes.SubProcQueue.Basic

/-!
# What runs at the same time

At every moment of a run at most `maxrunning` processes run, a sync point runs alone, and the other
processes are started in the order in which they were added.
-/

namespace WvStreams

open List Ent

namespace WvSubProcQueue

variable {κ : Type} {Allowed : Option κ → Prop}

/-- `go` asserts `max` at its end. -/
structure Sound (q : WvSubProcQueue κ) : Prop where
  max : q.runq.length ≤ q.maxrunning
  alone : ∀ e ∈ q.runq, e.cookie ≠ none → q.runq = [e]

variable {q q' : WvSubProcQueue κ} {l log : List (Happening κ)}

theorem Sound.of_small (h : q.Sound) (hsmall : Small Allowed q l q') : q'.Sound := by
  cases hsmall with
  | merged | marked | appended => exact ⟨h.max, h.alone⟩
  | finished front e back hrun he hfront =>
    constructor
    · have hmax := h.max
      rw [hrun] at hmax
      simpa using hmax
    · intro f hf hcookie
      have halone : ∀ g ∈ q.runq, g.cookie ≠ none → front = [] ∧ back = [] := by
        intro g hg hc
        have hone := congrArg length ((h.alone g hg hc).symm.trans hrun)
        simp only [length_cons, length_nil, length_append] at hone
        exact ⟨length_eq_zero_iff.mp (by omega), length_eq_zero_iff.mp (by omega)⟩
      have hempty : front = [] ∧ back = [] := by
        rcases mem_append.mp hf with hf | hf
        · exact halone f (hrun ▸ mem_append_left _ hf) hcookie
        · rcases mem_cons.mp hf with rfl | hf
          · exact halone e (hrun ▸ mem_append_right _ mem_cons_self) hcookie
          · exact halone f (hrun ▸ mem_append_right _ (mem_cons_of_mem _ hf)) hcookie
      rw [hempty.1, hempty.2] at hf ⊢
      rw [mem_singleton.mp hf]
      rfl
  | cleanup =>
    constructor
    · exact Nat.le_trans (length_filter_le _ _) h.max
    · intro e he hcookie
      obtain ⟨he, hrunning⟩ := mem_filter.mp he
      show q.runq.filter _ = [e]
      rw [h.alone e he hcookie, filter_cons_of_pos hrunning, filter_nil]
  | started e waitq hwait hmax hsync hcookie =>
    constructor
    · show (q.runq ++ [e.start]).length ≤ q.maxrunning
      rw [length_append]
      exact hmax
    · intro f hf hfcookie
      rcases mem_append.mp hf with hf | hf
      · exact absurd (hcookie f hf) hfcookie
      · have hfe := mem_singleton.mp hf
        subst hfe
        show q.runq ++ [e.start] = [e.start]
        rw [hsync hfcookie, nil_append]

def runningStep [DecidableEq κ] (running : List (Option κ × Nat)) :
    Happening κ → List (Option κ × Nat)
  | .added _ _ => running
  | .started cookie proc => running ++ [(cookie, proc)]
  | .finished cookie proc => running.erase (cookie, proc)

def runningAfter [DecidableEq κ] (log : List (Happening κ)) : List (Option κ × Nat) :=
  log.foldl runningStep []

/-- Not too many, and those with a cookie alone. -/
structure Fits (maxrunning : Nat) (running : List (Option κ × Nat)) : Prop where
  max : running.length ≤ maxrunning
  alone : ∀ k ∈ running, k.1 ≠ none → running = [k]

def running (q : WvSubProcQueue κ) : List (Option κ × Nat) :=
  (q.runq.filter (·.running)).map key

theorem Sound.fits (h : q.Sound) : Fits q.maxrunning q.running := by
  constructor
  · rw [running, length_map]
    exact Nat.le_trans (length_filter_le _ _) h.max
  · intro k hk hcookie
    obtain ⟨e, he, rfl⟩ := mem_map.mp hk
    obtain ⟨he, hrunning⟩ := mem_filter.mp he
    rw [running, h.alone e he hcookie, filter_cons_of_pos hrunning, filter_nil]
    rfl

theorem erase_append_of_forall_ne {α : Type} [BEq α] [LawfulBEq α] {a : α} {front : List α}
    (h : ∀ b ∈ front, b ≠ a) (back : List α) : (front ++ a :: back).erase a = front ++ back := by
  rw [erase_append_right _ fun ha => h a ha rfl, erase_cons_head]

theorem running_of_small [DecidableEq κ] (h : runningAfter log = q.running)
    (hsmall : Small Allowed q l q') : runningAfter (log ++ l) = q'.running := by
  have happend : ∀ l, runningAfter (log ++ l) = l.foldl runningStep q.running := by
    intro l
    rw [runningAfter, foldl_append]
    exact congrArg (fun running => l.foldl runningStep running) h
  rw [happend]
  cases hsmall with
  | merged | marked | appended => rfl
  | finished front e back hrun he hfront =>
    have hother : ∀ k ∈ (front.filter (·.running)).map key, k ≠ e.key := by
      intro k hk heq
      obtain ⟨f, hf, rfl⟩ := mem_map.mp hk
      obtain ⟨hf, hrunning⟩ := mem_filter.mp hf
      exact hfront f hf hrunning (congrArg Prod.snd heq)
    have hbefore : q.running = (front.filter (·.running)).map key ++
        e.key :: (back.filter (·.running)).map key := by
      simp [running, hrun, he]
    have hafter : ({ q with runq := front ++ e.finish :: back } : WvSubProcQueue κ).running =
        (front.filter (·.running)).map key ++ (back.filter (·.running)).map key := by
      simp [running, finish]
    rw [hafter, hbefore]
    show (_ ++ e.key :: _).erase e.key = _
    exact erase_append_of_forall_ne hother _
  | cleanup =>
    show q.running = (filter _ (filter _ q.runq)).map key
    rw [filter_filter]
    simp only [Bool.and_self]
    rfl
  | started e =>
    show q.running ++ [e.key] = map _ (filter _ (q.runq ++ [e.start]))
    rw [filter_append, map_append]
    rfl

def plainAdd : Happening κ → Option Nat
  | .added none proc => some proc
  | _ => none

def plainStart : Happening κ → Option Nat
  | .started none proc => some proc
  | _ => none

theorem entry_of_small (hsmall : Small Allowed q l q') {f : Ent κ} (hf : f ∈ q'.runq ++ q'.waitq) :
    (∃ e ∈ q.runq ++ q.waitq, f.cookie = e.cookie ∧
      (f.redo = true → e.redo = true ∨ f.cookie ≠ none)) ∨ f.redo = false := by
  have hsame : f ∈ q.runq ++ q.waitq → (∃ e ∈ q.runq ++ q.waitq, f.cookie = e.cookie ∧
      (f.redo = true → e.redo = true ∨ f.cookie ≠ none)) ∨ f.redo = false :=
    fun hf => .inl ⟨f, hf, rfl, Or.inl⟩
  cases hsmall with
  | merged => exact hsame hf
  | marked cookie front e back _ _ hwait _ he =>
    simp only [mem_append, mem_cons] at hf
    rcases hf with hf | hf | rfl | hf
    · exact hsame (mem_append_left _ hf)
    · exact hsame (by simp [hwait, hf])
    · refine .inl ⟨e, by simp [hwait], rfl, fun _ => .inr ?_⟩
      rw [mark, he]
      exact Option.some_ne_none cookie
    · exact hsame (by simp [hwait, hf])
  | appended cookie =>
    simp only [mem_append, mem_singleton] at hf
    rcases hf with hf | hf | rfl
    · exact hsame (mem_append_left _ hf)
    · exact hsame (mem_append_right _ hf)
    · exact .inr rfl
  | finished front e back hrun =>
    simp only [mem_append, mem_cons] at hf
    rcases hf with (hf | rfl | hf) | hf
    · exact hsame (by simp [hrun, hf])
    · exact .inl ⟨e, by simp [hrun], rfl, Or.inl⟩
    · exact hsame (by simp [hrun, hf])
    · exact hsame (mem_append_right _ hf)
  | cleanup =>
    rcases mem_append.mp hf with hf | hf
    · exact hsame (mem_append_left _ (mem_of_mem_filter hf))
    · rcases mem_append.mp hf with hf | hf
      · exact hsame (mem_append_right _ hf)
      · obtain ⟨e, -, rfl⟩ := mem_map.mp hf
        exact .inr rfl
  | started e waitq hwait =>
    simp only [mem_append, mem_singleton] at hf
    rcases hf with (hf | rfl) | hf
    · exact hsame (mem_append_left _ hf)
    · exact .inl ⟨e, by simp [hwait], rfl, Or.inl⟩
    · exact hsame (by simp [hwait, hf])

def Once (q : WvSubProcQueue κ) : Prop :=
  ∀ e ∈ q.runq ++ q.waitq, e.cookie = none → e.redo = false

theorem Once.of_small (h : q.Once) (hsmall : Small Allowed q l q') : q'.Once := by
  intro f hf hnone
  rcases entry_of_small hsmall hf with ⟨e, he, hcookie, hredo⟩ | hredo
  · by_contra htrue
    rcases hredo (Bool.not_eq_false _ ▸ htrue) with hmarked | hsome
    · rw [h e he (hcookie ▸ hnone)] at hmarked
      cases hmarked
    · exact hsome hnone
  · exact hredo

def plainWaiting (waitq : List (Ent κ)) : List Nat :=
  (waitq.filter fun e => e.cookie.isNone).map proc

/-- Those that are waiting were not started yet. -/
structure InOrder (q : WvSubProcQueue κ) (log : List (Happening κ)) : Prop where
  once : q.Once
  started : log.filterMap plainStart ++ plainWaiting q.waitq = log.filterMap plainAdd
  fresh : ∀ proc ∈ log.filterMap plainAdd, proc < q.count
  nodup : (log.filterMap plainAdd).Nodup

theorem InOrder.of_not_added (h : InOrder q log) (hsmall : Small Allowed q l q')
    (hadd : l.filterMap plainAdd = []) (hcount : q.count ≤ q'.count)
    (hwait : l.filterMap plainStart ++ plainWaiting q'.waitq = plainWaiting q.waitq) :
    InOrder q' (log ++ l) := by
  have hadded : (log ++ l).filterMap plainAdd = log.filterMap plainAdd := by
    rw [filterMap_append, hadd, append_nil]
  refine ⟨h.once.of_small hsmall, ?_, ?_, ?_⟩
  · rw [hadded, filterMap_append, append_assoc, hwait, h.started]
  · intro proc hproc
    exact Nat.lt_of_lt_of_le (h.fresh proc (hadded ▸ hproc)) hcount
  · exact hadded ▸ h.nodup

theorem InOrder.of_small (h : InOrder q log) (hsmall : Small Allowed q l q') :
    InOrder q' (log ++ l) := by
  have hkeep := h.of_not_added hsmall
  cases hsmall with
  | merged => exact hkeep rfl (Nat.le_succ _) rfl
  | marked cookie front e back _ _ hwait _ he =>
    refine hkeep rfl (Nat.le_succ _) ?_
    simp [plainWaiting, plainStart, hwait, mark, he]
  | appended cookie hallowed hnew =>
    cases cookie with
    | some cookie =>
      refine hkeep rfl (Nat.le_succ _) ?_
      simp [plainWaiting, plainStart]
    | none =>
      have hadded : (log ++ [Happening.added none q.count]).filterMap plainAdd =
          log.filterMap plainAdd ++ [q.count] := by
        rw [filterMap_append]
        rfl
      have hstarted : (log ++ [Happening.added none q.count]).filterMap plainStart =
          log.filterMap plainStart := by
        rw [filterMap_append]
        exact append_nil _
      refine ⟨h.once.of_small (.appended none hallowed hnew), ?_, ?_, ?_⟩
      · have hlast : plainWaiting (q.waitq ++ [{ cookie := none, proc := q.count }]) =
            plainWaiting q.waitq ++ [q.count] := by
          simp [plainWaiting]
        rw [hadded, hstarted, hlast, ← append_assoc, h.started]
      · intro proc hproc
        rw [hadded] at hproc
        rcases mem_append.mp hproc with hproc | hproc
        · exact Nat.lt_succ_of_lt (h.fresh proc hproc)
        · rw [mem_singleton.mp hproc]
          exact Nat.lt_succ_self _
      · rw [hadded]
        refine nodup_append.mpr ⟨h.nodup, nodup_singleton _, ?_⟩
        rintro proc hproc _ hcount rfl
        rw [mem_singleton.mp hcount] at hproc
        exact Nat.lt_irrefl _ (h.fresh _ hproc)
  | finished => exact hkeep rfl (Nat.le_refl _) rfl
  | cleanup =>
    refine hkeep rfl (Nat.le_refl _) ?_
    -- an entry that is enqueued again is marked, so it has a cookie
    have hnone : ((q.runq.filter fun e => !e.running && e.redo).map again).filter
        (fun e => e.cookie.isNone) = [] := by
      rw [filter_eq_nil_iff]
      intro f hf hcookie
      obtain ⟨e, he, rfl⟩ := mem_map.mp hf
      obtain ⟨he, hfinished⟩ := mem_filter.mp he
      have hredo := h.once e (mem_append_left _ he) (Option.isNone_iff_eq_none.mp hcookie)
      rw [hredo, Bool.and_false] at hfinished
      cases hfinished
    show plainWaiting (q.waitq ++ _) = _
    rw [plainWaiting, filter_append, hnone, append_nil]
    rfl
  | started e waitq hwait =>
    refine hkeep rfl (Nat.le_refl _) ?_
    cases hcookie : e.cookie with
    | none | some cookie => simp [plainWaiting, plainStart, hwait, hcookie]

theorem log_of_small (hsmall : Small Allowed q l q') : l = [] ∨ ∃ happening, l = [happening] := by
  cases hsmall <;> first | exact .inl rfl | exact .inr ⟨_, rfl⟩

theorem maxrunning_of_small (hsmall : Small Allowed q l q') : q'.maxrunning = q.maxrunning := by
  cases hsmall <;> rfl

theorem maxrunning_run [DecidableEq κ] (q : WvSubProcQueue κ) (calls : List (Call κ)) :
    (q.run calls).1.maxrunning = q.maxrunning := by
  have hstep : ∀ (r : WvSubProcQueue κ) (log l : List (Happening κ)) r',
      r.maxrunning = q.maxrunning → Small (fun _ => True) r l r' → r'.maxrunning = q.maxrunning :=
    fun _ _ _ _ h hsmall => (maxrunning_of_small hsmall).trans h
  exact run_induct hstep rfl calls fun _ _ => trivial

/-- What holds after every small step of a run. -/
structure Steady [DecidableEq κ] (maxrunning : Nat) (q : WvSubProcQueue κ)
    (log : List (Happening κ)) : Prop where
  same : q.maxrunning = maxrunning
  sound : q.Sound
  running : runningAfter log = q.running
  moments : ∀ moment, moment <+: log → Fits maxrunning (runningAfter moment)
  order : InOrder q log

theorem Steady.of_small [DecidableEq κ] {maxrunning : Nat} (h : Steady maxrunning q log)
    (hsmall : Small Allowed q l q') : Steady maxrunning q' (log ++ l) := by
  have hsame := (maxrunning_of_small hsmall).trans h.same
  have hsound := h.sound.of_small hsmall
  have hrunning := running_of_small h.running hsmall
  refine ⟨hsame, hsound, hrunning, ?_, h.order.of_small hsmall⟩
  intro moment hmoment
  have hnow : Fits maxrunning (runningAfter (log ++ l)) := by
    rw [hrunning, ← hsame]
    exact hsound.fits
  rcases log_of_small hsmall with rfl | ⟨happening, rfl⟩
  · exact h.moments moment (append_nil log ▸ hmoment)
  · rcases prefix_concat_iff.mp hmoment with rfl | hmoment
    · exact hnow
    · exact h.moments moment hmoment

theorem steady_run [DecidableEq κ] (maxrunning : Nat) (calls : List (Call κ)) :
    Steady maxrunning (({ maxrunning } : WvSubProcQueue κ).run calls).1
      (({ maxrunning } : WvSubProcQueue κ).run calls).2 := by
  have hempty : Fits maxrunning ([] : List (Option κ × Nat)) :=
    ⟨Nat.zero_le _, nofun⟩
  have hstart : Steady maxrunning ({ maxrunning } : WvSubProcQueue κ) [] := by
    refine ⟨rfl, ⟨Nat.zero_le _, nofun⟩, rfl, ?_, ?_⟩
    · intro moment hmoment
      rw [prefix_nil.mp hmoment]
      exact hempty
    · exact ⟨nofun, rfl,
        nofun, nodup_nil⟩
  have hstep : ∀ (q : WvSubProcQueue κ) log l q', Steady maxrunning q log →
      Small (fun _ => True) q l q' → Steady maxrunning q' (log ++ l) :=
    fun _ _ _ _ h hsmall => h.of_small hsmall
  exact run_induct hstep hstart calls fun _ _ => trivial

/-- At every moment at most `maxrunning` processes run, and a sync point runs alone. Once the
queue is empty, the processes without a cookie were started in the order in which they were added,
each once. -/
theorem concurrency [DecidableEq κ] (maxrunning : Nat) (calls : List (Call κ)) :
    let r := ({ maxrunning } : WvSubProcQueue κ).run calls
    (∀ moment, moment <+: r.2 → (runningAfter moment).length ≤ maxrunning ∧
      ∀ cookie proc, (some cookie, proc) ∈ runningAfter moment →
        runningAfter moment = [(some cookie, proc)]) ∧
      (r.1.isempty = true → r.2.filterMap plainStart = r.2.filterMap plainAdd ∧
        (r.2.filterMap plainStart).Nodup) := by
  have h := steady_run maxrunning calls
  refine ⟨?_, ?_⟩
  · intro moment hmoment
    have hfits := h.moments moment hmoment
    exact ⟨hfits.max, fun cookie proc hk => hfits.alone _ hk (Option.some_ne_none cookie)⟩
  · intro hempty
    have hwait := (Bool.and_eq_true_iff.mp hempty).2
    have hstarted := h.order.started
    rw [isEmpty_iff.mp hwait] at hstarted
    have heq := (append_nil _).symm.trans hstarted
    exact ⟨heq, heq ▸ h.order.nodup⟩

end WvSubProcQueue

end WvStreams
