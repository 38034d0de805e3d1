import Mathlib.Data.List.Basic

/-!
# Transducers

A transducer reads symbols one by one, and writes some symbols for each. `feed` hands it its
input in chunks and leaves out those that it does not take any more (`feed_eq`). `decodes` is
the round trip of two transducers from what one symbol does.
-/

namespace WvStreams.Lib

open List

structure Transducer (σ α β : Type) where
  step : σ → α → σ × List β

namespace Transducer

variable {σ τ α β : Type}

def run (t : Transducer σ α β) (s : σ) : List α → σ × List β
  | [] => (s, [])
  | a :: as => ((t.run (t.step s a).1 as).1, (t.step s a).2 ++ (t.run (t.step s a).1 as).2)

/-- The input comes in chunks; a state that is not `live` takes none. -/
def feed (t : Transducer σ α β) (live : σ → Bool) (s : σ) : List (List α) → σ × List β
  | [] => (s, [])
  | chunk :: chunks =>
    let (s, out) := if live s && !chunk.isEmpty then t.run s chunk else (s, [])
    let (s, more) := t.feed live s chunks
    (s, out ++ more)

@[simp] theorem run_nil (t : Transducer σ α β) (s : σ) : t.run s [] = (s, []) := rfl

theorem run_cons (t : Transducer σ α β) (s : σ) (a : α) (as : List α) :
    t.run s (a :: as) =
      ((t.run (t.step s a).1 as).1, (t.step s a).2 ++ (t.run (t.step s a).1 as).2) := rfl

theorem run_append (t : Transducer σ α β) (s : σ) (xs ys : List α) :
    t.run s (xs ++ ys) =
      ((t.run (t.run s xs).1 ys).1, (t.run s xs).2 ++ (t.run (t.run s xs).1 ys).2) := by
  induction xs generalizing s with
  | nil => rfl
  | cons x xs ih => rw [cons_append, run_cons, ih, run_cons, append_assoc]

variable {s : σ} {t : Transducer σ α β} {P : σ → Prop} {live : σ → Bool}

theorem run_induct (hstep : ∀ s a, P s → P (t.step s a).1) (hs : P s) (xs : List α) :
    P (t.run s xs).1 := by
  induction xs generalizing s with
  | nil => exact hs
  | cons x xs ih => exact ih (hstep s x hs)

theorem run_silent (hstep : ∀ s a, P s → P (t.step s a).1 ∧ (t.step s a).2 = []) (hs : P s)
    (xs : List α) : (t.run s xs).2 = [] := by
  induction xs generalizing s with
  | nil => rfl
  | cons x xs ih =>
    obtain ⟨hnext, hout⟩ := hstep s x hs
    rw [run_cons, hout, ih hnext]
    rfl

theorem feed_cons (t : Transducer σ α β) (live : σ → Bool) (s : σ) (chunk : List α)
    (chunks : List (List α)) :
    t.feed live s (chunk :: chunks) =
      if live s then ((t.feed live (t.run s chunk).1 chunks).1,
          (t.run s chunk).2 ++ (t.feed live (t.run s chunk).1 chunks).2)
      else t.feed live s chunks := by
  cases hlive : live s with
  | false => simp [feed, hlive]
  | true => cases chunk <;> simp [feed, hlive]

theorem feed_dead (t : Transducer σ α β) (hs : live s = false) (chunks : List (List α)) :
    t.feed live s chunks = (s, []) := by
  induction chunks with
  | nil => rfl
  | cons chunk chunks ih => rw [feed_cons, hs, if_neg Bool.false_ne_true, ih]

/-- It makes no difference to the output how the input is cut, if nothing is written any more
in the states that take no chunk. -/
theorem feed_eq (hstep : ∀ s a, P s → P (t.step s a).1)
    (hdead : ∀ s, P s → live s = false → ∀ xs, (t.run s xs).2 = []) (hs : P s)
    (chunks : List (List α)) : (t.feed live s chunks).2 = (t.run s chunks.flatten).2 := by
  induction chunks generalizing s with
  | nil => rfl
  | cons chunk chunks ih =>
    cases hlive : live s with
    | false => rw [feed_dead t hlive, hdead s hs hlive]
    | true =>
      have hnext := run_induct hstep hs chunk
      rw [feed_cons, hlive, if_pos rfl, ih hnext, flatten_cons, run_append]

theorem run_stopped (hs : ∀ a, t.step s a = (s, [])) (xs : List α) : t.run s xs = (s, []) := by
  induction xs with
  | nil => rfl
  | cons x xs ih => rw [run_cons, hs, ih, append_nil]

/-- If a state that takes no chunk is not changed by any symbol either, the states are the same
too. -/
theorem feed_stopped (hstep : ∀ s a, P s → P (t.step s a).1)
    (hdead : ∀ s, P s → live s = false → ∀ a, t.step s a = (s, [])) (hs : P s)
    (chunks : List (List α)) : t.feed live s chunks = t.run s chunks.flatten := by
  induction chunks generalizing s with
  | nil => rfl
  | cons chunk chunks ih =>
    cases hlive : live s with
    | false => rw [feed_dead t hlive, run_stopped (hdead s hs hlive)]
    | true =>
      have hnext := run_induct hstep hs chunk
      rw [feed_cons, hlive, if_pos rfl, ih hnext, flatten_cons, run_append]

theorem feed_live (hstep : ∀ s a, P s → P (t.step s a).1) (hlive : ∀ s, P s → live s = true)
    (hs : P s) (chunks : List (List α)) : t.feed live s chunks = t.run s chunks.flatten := by
  apply feed_stopped hstep (fun s hs hdead => ?_) hs
  rw [hlive s hs] at hdead
  cases hdead

/-- `R s t pend` says that a decoder in state `t` has read all that an encoder in state `s` has
written, and given back all symbols but `pend`. If one symbol keeps `R`, a run does. -/
theorem decodes {enc : Transducer σ α β} {dec : Transducer τ β α} {R : σ → τ → List α → Prop}
    (hstep : ∀ s t pend a, R s t pend → ∃ pend',
      R (enc.step s a).1 (dec.run t (enc.step s a).2).1 pend' ∧
        pend ++ [a] = (dec.run t (enc.step s a).2).2 ++ pend') {t : τ} {pend : List α}
    (hR : R s t pend) (xs : List α) :
    ∃ pend', R (enc.run s xs).1 (dec.run t (enc.run s xs).2).1 pend' ∧
      pend ++ xs = (dec.run t (enc.run s xs).2).2 ++ pend' := by
  induction xs generalizing s t pend with
  | nil => exact ⟨pend, hR, by simp⟩
  | cons x xs ih =>
    obtain ⟨mid, hmid, hout⟩ := hstep s t pend x hR
    obtain ⟨pend', hend, hrest⟩ := ih hmid
    rw [run_cons, run_append]
    refine ⟨pend', hend, ?_⟩
    have hcons : pend ++ x :: xs = pend ++ [x] ++ xs := by simp
    rw [hcons, hout, append_assoc, hrest, append_assoc]

end Transducer

end WvStreams.Lib
