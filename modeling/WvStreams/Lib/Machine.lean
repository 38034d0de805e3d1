import Mathlib.Logic.Basic

/-!
# Machines that may fail

A machine takes inputs one by one and gives an output for each, or fails. `runs_of_along` is
the rule for whole runs: if each step that meets a condition succeeds, keeps an invariant and
has some property, then so does each step of a run whose steps meet the condition.
-/

namespace WvStreams.Lib

structure Machine (σ ι ο : Type) where
  step : σ → ι → Option (σ × ο)

namespace Machine

variable {σ ι ο : Type}

def Along (m : Machine σ ι ο) (Cond : σ → ι → Prop) (s : σ) : List ι → Prop
  | [] => True
  | i :: is => Cond s i ∧ ∀ s' o, m.step s i = some (s', o) → Along m Cond s' is

/-- No step fails, and each has the property. -/
def Runs (m : Machine σ ι ο) (P : σ → ι → σ → ο → Prop) (s : σ) : List ι → Prop
  | [] => True
  | i :: is => ∃ s' o, m.step s i = some (s', o) ∧ P s i s' o ∧ Runs m P s' is

variable {m : Machine σ ι ο} {s : σ} {is : List ι} {P : σ → ι → σ → ο → Prop} {Cond : σ → ι → Prop}
  {Inv : σ → Prop}

theorem along_of_forall {Cond : ι → Prop} (h : ∀ i ∈ is, Cond i) :
    m.Along (fun _ i => Cond i) s is := by
  induction is generalizing s with
  | nil => trivial
  | cons i is ih =>
    exact ⟨h i List.mem_cons_self, fun _ _ _ => ih fun j hj => h j (List.mem_cons_of_mem i hj)⟩

theorem Along.and {Cond' : σ → ι → Prop} (h : m.Along Cond s is) (h' : m.Along Cond' s is) :
    m.Along (fun s i => Cond s i ∧ Cond' s i) s is := by
  induction is generalizing s with
  | nil => trivial
  | cons i is ih =>
    exact ⟨⟨h.1, h'.1⟩, fun s' o hnext => ih (h.2 s' o hnext) (h'.2 s' o hnext)⟩

theorem Runs.imp {Q : σ → ι → σ → ο → Prop} (h : ∀ s i s' o, P s i s' o → Q s i s' o)
    (his : m.Runs P s is) : m.Runs Q s is := by
  induction is generalizing s with
  | nil => trivial
  | cons i is ih =>
    obtain ⟨s', o, hnext, hP, hrest⟩ := his
    exact ⟨s', o, hnext, h s i s' o hP, ih hrest⟩

theorem runs_of_along {m : Machine σ ι ο} {Cond : σ → ι → Prop} {P : σ → ι → σ → ο → Prop}
    {Inv : σ → Prop}
    (hstep : ∀ s i, Inv s → Cond s i → ∃ s' o, m.step s i = some (s', o) ∧ P s i s' o ∧ Inv s')
    {s : σ} (hs : Inv s) {is : List ι} (his : m.Along Cond s is) : m.Runs P s is := by
  induction is generalizing s with
  | nil => trivial
  | cons i is ih =>
    obtain ⟨hcond, hrest⟩ := his
    obtain ⟨s', o, hnext, hP, hs'⟩ := hstep s i hs hcond
    exact ⟨s', o, hnext, hP, ih hs' (hrest s' o hnext)⟩

theorem runs_of_forall
    (hstep : ∀ s i, Inv s → ∃ s' o, m.step s i = some (s', o) ∧ P s i s' o ∧ Inv s') (hs : Inv s)
    (is : List ι) : m.Runs P s is := by
  induction is generalizing s with
  | nil => trivial
  | cons i is ih =>
    obtain ⟨s', o, hnext, hP, hs'⟩ := hstep s i hs
    exact ⟨s', o, hnext, hP, ih hs'⟩

theorem along_of_runs
    (hcond : ∀ s i s' o, Inv s → m.step s i = some (s', o) → P s i s' o → Cond s i)
    (hstep : ∀ s i s' o, Inv s → Cond s i → m.step s i = some (s', o) → Inv s') (hs : Inv s)
    (his : m.Runs P s is) : m.Along Cond s is := by
  induction is generalizing s with
  | nil => trivial
  | cons i is ih =>
    obtain ⟨s', o, hnext, hP, hrest⟩ := his
    have hi := hcond s i s' o hs hnext hP
    refine ⟨hi, fun r p hr => ?_⟩
    obtain ⟨rfl, rfl⟩ := Prod.mk.inj (Option.some.inj (hr.symm.trans hnext))
    exact ih (hstep s i _ _ hs hi hnext) hrest

/-- Where every run has the property, the condition is met in every run, if it is a consequence
of what all runs from a state have. -/
theorem forall_along_of_forall_runs (hcond : ∀ s i, Inv s → (∀ is, m.Runs P s is) → Cond s i)
    (hstep : ∀ s i s' o, Inv s → Cond s i → m.step s i = some (s', o) → Inv s') (hs : Inv s)
    (hruns : ∀ is, m.Runs P s is) (is : List ι) : m.Along Cond s is := by
  induction is generalizing s with
  | nil => trivial
  | cons i is ih =>
    have hi := hcond s i hs hruns
    refine ⟨hi, fun s' o hnext => ih (hstep s i s' o hs hi hnext) fun is' => ?_⟩
    obtain ⟨r, p, hr, -, hrest⟩ := hruns (i :: is')
    obtain ⟨rfl, rfl⟩ := Prod.mk.inj (Option.some.inj (hr.symm.trans hnext))
    exact hrest

instance decidableAlong (m : Machine σ ι ο) (Cond : σ → ι → Prop) [∀ s i, Decidable (Cond s i)] :
    (s : σ) → (is : List ι) → Decidable (m.Along Cond s is)
  | _, [] => .isTrue trivial
  | s, i :: is =>
    match h : m.step s i with
    | none => decidable_of_iff (Cond s i)
        ⟨fun hc => ⟨hc, fun s' o he => by rw [h] at he; cases he⟩, fun hc => hc.1⟩
    | some (s', o) =>
      have := decidableAlong m Cond s' is
      decidable_of_iff (Cond s i ∧ m.Along Cond s' is)
        ⟨fun hc => ⟨hc.1, fun r p he => by rw [h] at he; cases he; exact hc.2⟩,
          fun hc => ⟨hc.1, hc.2 s' o h⟩⟩

instance decidableRuns (m : Machine σ ι ο) (P : σ → ι → σ → ο → Prop)
    [∀ s i s' o, Decidable (P s i s' o)] :
    (s : σ) → (is : List ι) → Decidable (m.Runs P s is)
  | _, [] => .isTrue trivial
  | s, i :: is =>
    match h : m.step s i with
    | none => .isFalse fun ⟨s', o, he, _⟩ => by rw [h] at he; cases he
    | some (s', o) =>
      have := decidableRuns m P s' is
      decidable_of_iff (P s i s' o ∧ m.Runs P s' is)
        ⟨fun hc => ⟨s', o, h, hc.1, hc.2⟩,
          fun ⟨r, p, he, hP, hr⟩ => by rw [h] at he; cases he; exact ⟨hP, hr⟩⟩

end Machine

end WvStreams.Lib
