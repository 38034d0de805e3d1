import Mathlib.Logic.Basic

/-!
# Computations that are watched before they return

A computation that has not returned has failed an assertion, or it is running and is in some
state. `Safe` says what holds of that state and of what is returned; it has a rule for each way
to put computations together.
-/

namespace WvStreams.Lib

/-- Why a computation has not returned. -/
inductive Stop (σ : Type) where
  | failed
  | running (s : σ)
  deriving DecidableEq

/-- No assertion fails. -/
def Safe {σ α : Type} (Inv : σ → Prop) (Post : α → Prop) : Except (Stop σ) α → Prop
  | .ok a => Post a
  | .error .failed => False
  | .error (.running s) => Inv s

/-- The assertion that there is a value. -/
def assertSome {σ α : Type} : Option α → Except (Stop σ) α
  | none => .error .failed
  | some a => .ok a

/-- A loop that is watched for some rounds. Each round gives the state of the next one, or what
the loop returns. -/
def iterate {σ α β : Type} (watch : α → σ) (body : α → Except (Stop σ) (α ⊕ β)) :
    Nat → α → Except (Stop σ) β
  | 0, a => .error (.running (watch a))
  | n + 1, a => body a >>= fun
    | .inl a => iterate watch body n a
    | .inr b => .ok b

/-- Steps one after the other. -/
def sequence {σ ι α : Type} (step : ι → α → Except (Stop σ) α) : List ι → α → Except (Stop σ) α
  | [], a => .ok a
  | i :: is, a => step i a >>= sequence step is

/-- Each step meets a condition in the state that it comes to. -/
def StepsMeet {σ ι α : Type} (step : ι → α → Except (Stop σ) α) (Cond : α → ι → Prop) :
    List ι → α → Prop
  | [], _ => True
  | i :: is, a => Cond a i ∧ ∀ a', step i a = .ok a' → StepsMeet step Cond is a'

def Returns {σ α : Type} (m : Except (Stop σ) α) : Prop := ∃ a, m = .ok a

section Rules

variable {σ α β : Type} {Inv Inv' : σ → Prop} {Post : α → Prop}

variable {m : Except (Stop σ) α}

theorem Safe.mono {Post' : α → Prop} (h : Safe Inv Post m) (hinv : ∀ s, Inv s → Inv' s)
    (hpost : ∀ a, Post a → Post' a) : Safe Inv' Post' m := by
  match m, h with
  | .ok a, h => exact hpost a h
  | .error (.running s), h => exact hinv s h

theorem Safe.bind {Post' : β → Prop} {f : α → Except (Stop σ) β} (h : Safe Inv Post m)
    (hf : ∀ a, Post a → Safe Inv Post' (f a)) : Safe Inv Post' (m >>= f) := by
  match m, h with
  | .ok a, h => exact hf a h
  | .error (.running s), h => exact h

theorem Safe.iterate {Post : β → Prop} {I : α → Prop} {watch : α → σ}
    {body : α → Except (Stop σ) (α ⊕ β)} (hwatch : ∀ a, I a → Inv (watch a))
    (hbody : ∀ a, I a → Safe Inv (Sum.elim I Post) (body a)) {a : α} (ha : I a) (n : Nat) :
    Safe Inv Post (iterate watch body n a) := by
  induction n generalizing a with
  | zero => exact hwatch a ha
  | succ n ih =>
    refine (hbody a ha).bind fun r hr => ?_
    match r, hr with
    | .inl a', hr => exact ih hr
    | .inr b, hr => exact hr

theorem stepsMeet_true {ι : Type} (step : ι → α → Except (Stop σ) α) (is : List ι) (a : α) :
    StepsMeet step (fun _ _ => True) is a := by
  induction is generalizing a with
  | nil => trivial
  | cons i is ih => exact ⟨trivial, fun a' _ => ih a'⟩

theorem Safe.sequence {ι : Type} {step : ι → α → Except (Stop σ) α} {Cond : α → ι → Prop}
    {is : List ι} (hstep : ∀ i ∈ is, ∀ a, Post a → Cond a i → Safe Inv Post (step i a)) {a : α}
    (ha : Post a) (h : StepsMeet step Cond is a) : Safe Inv Post (sequence step is a) := by
  induction is generalizing a with
  | nil => exact ha
  | cons i is ih =>
    obtain ⟨hfirst, hrest⟩ := List.forall_mem_cons.mp hstep
    have hi := hfirst a ha h.1
    rw [Lib.sequence]
    match hcase : step i a, hi with
    | .ok a', hi => exact ih hrest hi (h.2 a' hcase)
    | .error (.running s), hi => exact hi

theorem Safe.and_of_imp {Post' : α → Prop} {P : Prop} (h : Safe Inv Post m)
    (h' : P → Safe Inv Post' m) : Safe Inv (fun a => Post a ∧ (P → Post' a)) m := by
  match m, h, h' with
  | .ok a, h, h' => exact ⟨h, h'⟩
  | .error (.running s), h, _ => exact h

theorem Returns.bind {f : α → Except (Stop σ) β} (h : Returns m) (hf : ∀ a, Returns (f a)) :
    Returns (m >>= f) := by
  obtain ⟨a, rfl⟩ := h
  exact hf a

theorem Safe.returns (h : Safe (fun _ => False) Post m) : Returns m := by
  match m, h with
  | .ok a, _ => exact ⟨a, rfl⟩

end Rules

end WvStreams.Lib
