import WvStreams.UniConf.MountGen

/-!
# `refresh` of the composite generators

`UniMountGen`, `UniListGen` and `UniReplicateGen` pass `refresh` on to the generators they hold.
What those do is free here: a call changes the world they share as it likes and has either result.
The calls are written down with their results, and `sweep` is the run that asks each generator
once, in order. The list and the replicator always do it. The mounts stop at the first failure,
so they do it when no generator but the last one fails (`reachesAll_iff`).
-/

namespace WvStreams

open UniMountGen

/-- What `UniConfGen` itself has: the announcements it holds back, and those it has made. -/
structure UniConfGen where
  hold_nesting : Nat := 0
  deltas : List Delta := []
  dispatched : List Delta := []

namespace UniConfGen

def hold_delta (g : UniConfGen) : UniConfGen := { g with hold_nesting := g.hold_nesting + 1 }

def flush_delta (g : UniConfGen) : UniConfGen :=
  { g with deltas := [], dispatched := g.dispatched ++ g.deltas }

def unhold_delta (g : UniConfGen) : UniConfGen :=
  let g := if g.hold_nesting = 1 then g.flush_delta else g
  { g with hold_nesting := g.hold_nesting - 1 }

end UniConfGen

namespace Composite

variable {ι ω : Type}

/-- All that a call may change: the composite's own part, with what is announced to it, and the
rest of the world. -/
structure World (ω : Type) where
  own : UniConfGen
  rest : ω

def World.mapOwn (f : UniConfGen → UniConfGen) (w : World ω) : World ω := { w with own := f w.own }

/-- The generators that composites hold, by name. -/
structure InnerGens (ι ω : Type) where
  isok : ι → World ω → Bool
  refresh : ι → World ω → World ω × Bool

/-- The world, and the calls of `refresh` so far with their results. -/
structure Refreshes (ι ω : Type) where
  world : World ω
  calls : List (ι × Bool) := []

namespace InnerGens

variable (inner : InnerGens ι ω)

/-- A call of the `refresh` of one generator. -/
def call (i : ι) (r : Refreshes ι ω) : Refreshes ι ω × Bool :=
  let (world, result) := inner.refresh i r.world
  (⟨world, r.calls ++ [(i, result)]⟩, result)

/-- Each generator is refreshed, one after the other. -/
def sweep : List ι → World ω → World ω × List (ι × Bool)
  | [], world => (world, [])
  | i :: gens, world =>
    let (world, result) := inner.refresh i world
    let (world, calls) := sweep gens world
    (world, (i, result) :: calls)

end InnerGens

end Composite

open Composite

section

variable {ι ω : Type} (inner : InnerGens ι ω)

/-- The loop of `UniMountGen::refresh`, from some value of `result`. -/
def UniMountGen.refreshLoop : List ι → Refreshes ι ω × Bool → Refreshes ι ω × Bool
  | [], r => r
  -- `result && i->gen->refresh()` makes no call once `result` is false
  | i :: mounts, (r, result) => refreshLoop mounts (if result then inner.call i r else (r, false))

def UniMountGen.refreshAll (mounts : List ι) (r : Refreshes ι ω) : Refreshes ι ω × Bool :=
  let r := { r with world := r.world.mapOwn .hold_delta }
  let (r, result) := UniMountGen.refreshLoop inner mounts (r, true)
  ({ r with world := r.world.mapOwn .unhold_delta }, result)

def UniListGen.refreshLoop : List ι → Refreshes ι ω × Bool → Refreshes ι ω × Bool
  | [], r => r
  | i :: l, (r, result) =>
    let (r, refreshed) := inner.call i r
    refreshLoop l (r, refreshed && result)

def UniListGen.refresh (l : List ι) (r : Refreshes ι ω) : Refreshes ι ω × Bool :=
  UniListGen.refreshLoop inner l (r, true)

namespace UniReplicateGen

/-- A generator with what the replicator remembers of it. -/
structure Gen (ι : Type) where
  gen : ι
  was_ok : Bool

/-- The generators with `was_ok` brought up to date, and whether one has become ok. -/
def becomeOk (gens : List (Gen ι)) (world : Composite.World ω) : List (Gen ι) × Bool :=
  (gens.map fun g => { g with was_ok := g.was_ok || inner.isok g.gen world },
    gens.any fun g => !g.was_ok && inner.isok g.gen world)

/-- `replicate` copies keys from one generator to another. It refreshes none, and what else it does
to the world is left open. -/
def replicate_if_any_have_become_ok (replicate : Composite.World ω → Composite.World ω)
    (gens : List (Gen ι)) (world : Composite.World ω) : List (Gen ι) × Composite.World ω :=
  let (gens, should_replicate) := becomeOk inner gens world
  (gens, if should_replicate then replicate world else world)

def refreshLoop : List (Gen ι) → Refreshes ι ω × Bool → Refreshes ι ω × Bool
  | [], r => r
  | g :: gens, (r, result) =>
    let (r, refreshed) := inner.call g.gen r
    refreshLoop gens (r, if !refreshed then false else result)

def refresh (replicate : Composite.World ω → Composite.World ω) (gens : List (Gen ι))
    (r : Refreshes ι ω) : Refreshes ι ω × Bool :=
  let (gens, world) := replicate_if_any_have_become_ok inner replicate gens r.world
  refreshLoop inner gens ({ r with world := world }, true)

end UniReplicateGen

end

namespace Composite

variable {ι ω : Type} (inner : InnerGens ι ω)

/-- A composite with the generators it holds, in the order of its list. -/
inductive Kind (ι ω : Type) where
  | mount (mounts : List ι)
  | list (l : List ι)
  | replicate (copy : World ω → World ω) (gens : List (UniReplicateGen.Gen ι))

def Kind.gens : Kind ι ω → List ι
  | mount mounts => mounts
  | list l => l
  | replicate _ gens => gens.map (·.gen)

def Kind.refresh : Kind ι ω → World ω → Refreshes ι ω × Bool
  | mount mounts, world => UniMountGen.refreshAll inner mounts { world := world }
  | list l, world => UniListGen.refresh inner l { world := world }
  | replicate copy gens, world => UniReplicateGen.refresh inner copy gens { world := world }

/-- Each generator has been called once, in order, and the result is true exactly when all the
calls returned true. -/
def ReachesAll (gens : List ι) (r : Refreshes ι ω × Bool) : Prop :=
  r.1.calls.map Prod.fst = gens ∧ (r.2 = true ↔ ∀ call ∈ r.1.calls, call.2 = true)

def swept (gens : List ι) (r : Refreshes ι ω) : Refreshes ι ω :=
  let (world, calls) := inner.sweep gens r.world
  ⟨world, r.calls ++ calls⟩

def allTrue (gens : List ι) (world : World ω) : Bool := (inner.sweep gens world).2.all (·.2)

open InnerGens

@[simp] theorem sweep_names (gens : List ι) (world : World ω) :
    (inner.sweep gens world).2.map Prod.fst = gens := by
  induction gens generalizing world with
  | nil => rfl
  | cons i gens ih => simp [sweep, ih]

@[simp] theorem swept_nil (r : Refreshes ι ω) : swept inner [] r = r := by
  simp [swept, sweep]

theorem swept_cons (i : ι) (gens : List ι) (r : Refreshes ι ω) :
    swept inner (i :: gens) r = swept inner gens (inner.call i r).1 := by
  simp [swept, sweep, call]

@[simp] theorem allTrue_nil (world : World ω) : allTrue inner [] world = true := rfl

theorem allTrue_cons (i : ι) (gens : List ι) (r : Refreshes ι ω) :
    allTrue inner (i :: gens) r.world =
      ((inner.call i r).2 && allTrue inner gens (inner.call i r).1.world) := rfl

theorem reachesAll_swept (gens : List ι) (world : World ω) :
    ReachesAll gens (swept inner gens { world := world }, allTrue inner gens world) := by
  constructor
  · simp [swept]
  · simp [swept, allTrue, List.all_eq_true]

theorem list_refreshLoop (l : List ι) (r : Refreshes ι ω) (result : Bool) :
    UniListGen.refreshLoop inner l (r, result) =
      (swept inner l r, result && allTrue inner l r.world) := by
  induction l generalizing r result with
  | nil => simp [UniListGen.refreshLoop]
  | cons i l ih =>
    simp only [UniListGen.refreshLoop, ih, swept_cons, allTrue_cons]
    cases (inner.call i r).2 <;> simp

theorem replicate_refreshLoop (gens : List (UniReplicateGen.Gen ι)) (r : Refreshes ι ω)
    (result : Bool) :
    UniReplicateGen.refreshLoop inner gens (r, result) =
      (swept inner (gens.map (·.gen)) r, result && allTrue inner (gens.map (·.gen)) r.world) := by
  induction gens generalizing r result with
  | nil => simp [UniReplicateGen.refreshLoop]
  | cons g gens ih =>
    simp only [UniReplicateGen.refreshLoop, ih, List.map_cons, swept_cons, allTrue_cons]
    cases (inner.call g.gen r).2 <;> simp

@[simp] theorem mount_refreshLoop_false (mounts : List ι) (r : Refreshes ι ω) :
    refreshLoop inner mounts (r, false) = (r, false) := by
  induction mounts with
  | nil => rfl
  | cons i mounts ih => simpa [refreshLoop] using ih

/-- No call of the sweep fails, apart from the last. -/
def OnlyLastFails (gens : List ι) (world : World ω) : Prop :=
  ∀ call ∈ (inner.sweep gens world).2.dropLast, call.2 = true

theorem onlyLastFails_cons (i j : ι) (gens : List ι) (r : Refreshes ι ω) :
    OnlyLastFails inner (i :: j :: gens) r.world ↔
      (inner.call i r).2 = true ∧ OnlyLastFails inner (j :: gens) (inner.call i r).1.world := by
  simp [OnlyLastFails, sweep, call]

theorem mount_refreshLoop {mounts : List ι} {r : Refreshes ι ω}
    (h : OnlyLastFails inner mounts r.world) :
    refreshLoop inner mounts (r, true) =
      (swept inner mounts r, allTrue inner mounts r.world) := by
  induction mounts generalizing r with
  | nil => simp [refreshLoop]
  | cons i mounts ih =>
    rw [refreshLoop, swept_cons, allTrue_cons, if_pos rfl]
    cases mounts with
    | nil => simp [refreshLoop]
    | cons j mounts =>
      obtain ⟨hi, hrest⟩ := (onlyLastFails_cons inner i j mounts r).mp h
      have hcall : inner.call i r = ((inner.call i r).1, true) := Prod.ext rfl hi
      rw [hcall, ih hrest, Bool.true_and]

theorem mount_refreshLoop_short {mounts : List ι} {r : Refreshes ι ω}
    (h : ¬ OnlyLastFails inner mounts r.world) :
    (refreshLoop inner mounts (r, true)).1.calls.length < r.calls.length + mounts.length := by
  induction mounts generalizing r with
  | nil => exact absurd (by simp [OnlyLastFails, sweep]) h
  | cons i mounts ih =>
    cases mounts with
    | nil => exact absurd (by simp [OnlyLastFails, sweep]) h
    | cons j mounts =>
      have hlen : (inner.call i r).1.calls.length = r.calls.length + 1 := by simp [call]
      rw [refreshLoop, if_pos rfl]
      cases hi : (inner.call i r).2 with
      | false =>
        have hcall : inner.call i r = ((inner.call i r).1, false) := Prod.ext rfl hi
        rw [hcall, mount_refreshLoop_false, hlen]
        simp
      | true =>
        have hcall : inner.call i r = ((inner.call i r).1, true) := Prod.ext rfl hi
        have hrest : ¬ OnlyLastFails inner (j :: mounts) (inner.call i r).1.world :=
          fun hrest => h ((onlyLastFails_cons inner i j mounts r).mpr ⟨hi, hrest⟩)
        have hshort := ih hrest
        rw [hcall]
        simp only [List.length_cons] at hshort ⊢
        omega

theorem list_reachesAll (l : List ι) (world : World ω) :
    ReachesAll l (UniListGen.refresh inner l { world := world }) := by
  rw [UniListGen.refresh, list_refreshLoop, Bool.true_and]
  exact reachesAll_swept inner l world

theorem becomeOk_gens (gens : List (UniReplicateGen.Gen ι)) (world : World ω) :
    (UniReplicateGen.becomeOk inner gens world).1.map (·.gen) = gens.map (·.gen) := by
  simp [UniReplicateGen.becomeOk]

theorem replicate_reachesAll (replicate : World ω → World ω)
    (gens : List (UniReplicateGen.Gen ι)) (world : World ω) :
    ReachesAll (gens.map (·.gen))
      (UniReplicateGen.refresh inner replicate gens { world := world }) := by
  rw [UniReplicateGen.refresh, UniReplicateGen.replicate_if_any_have_become_ok]
  simp only
  rw [replicate_refreshLoop, Bool.true_and, becomeOk_gens]
  apply reachesAll_swept

theorem mount_reachesAll_iff (mounts : List ι) (world : World ω) :
    ReachesAll mounts (refreshAll inner mounts { world := world }) ↔
      OnlyLastFails inner mounts (world.mapOwn .hold_delta) := by
  constructor
  · intro hall
    by_contra h
    have hshort := mount_refreshLoop_short inner (r := { world := world.mapOwn .hold_delta }) h
    have hlen := congrArg List.length hall.1
    simp only [List.length_map, refreshAll] at hlen
    simp [hlen] at hshort
  · intro h
    rw [refreshAll]
    simp only
    rw [mount_refreshLoop inner h]
    exact reachesAll_swept inner mounts _

/-- Which composites reach all their generators: every list and every replicator, and the mounts
when none but the last one fails. -/
theorem reachesAll_iff (composite : Kind ι ω) (world : World ω) :
    ReachesAll composite.gens (Kind.refresh inner composite world) ↔
      ∀ mounts, composite = .mount mounts →
        OnlyLastFails inner mounts (world.mapOwn .hold_delta) := by
  cases composite with
  | mount mounts => simpa [Kind.gens, Kind.refresh] using mount_reachesAll_iff inner mounts world
  | list l => simpa [Kind.gens, Kind.refresh] using list_reachesAll inner l world
  | replicate copy gens =>
    simpa [Kind.gens, Kind.refresh] using replicate_reachesAll inner copy gens world

/-- Of two mounted generators the first fails, and the second is not refreshed. -/
theorem not_reachesAll :
    ¬ ∀ composite : Kind Bool Unit, ∀ world, ReachesAll composite.gens
      (Kind.refresh ⟨fun _ _ => true, fun i world => (world, i)⟩ composite world) := by
  intro h
  have hcalls := (h (.mount [false, true]) ⟨{}, ()⟩).1
  simp [Kind.gens, Kind.refresh, refreshAll, refreshLoop, call] at hcalls

end Composite

end WvStreams
