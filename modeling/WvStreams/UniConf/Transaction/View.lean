import WvStreams.UniConf.Transaction.Callback

/-!
# The transaction as a view

`Edit`s are the calls that leave the pending changes pending: sets of the transaction and
direct sets of its base. After any number of them the transaction shows what the base holds
now with the pending sets carried out on it, one after the other (`overlay_run`). So a
`UniTempGen` to which they are applied cannot be told from it by `get` or `iterator`
(`view_refines_replay`).
-/

namespace WvStreams

open Lib PathMap

abbrev PlainSet := PlainKey × WvString

namespace PlainSet

def call (p : PlainSet) : UniConfKey × WvString := (p.1, p.2)

def note (p : PlainSet) : Note Segment Str := (UniConfKey.path p.1, p.2)

end PlainSet

namespace UniTempGen

theorem refSet_plain (m : PathMap Segment Str) {key : UniConfKey} (h : key.Plain)
    (value : WvString) : refSet m key value = assign [] m key.path value := by
  simp [refSet, h.not_slash]

theorem content_setv_plain (g : UniTempGen) (sets : List PlainSet) :
    (g.setv (sets.map PlainSet.call)).content =
      assigns [] g.content (sets.map PlainSet.note) := by
  rw [content_setv]
  generalize g.content = m
  induction sets generalizing m with
  | nil => rfl
  | cons p sets ih =>
    have hp : refSet m (p.1 : UniConfKey) p.2 =
        assign [] m (UniConfKey.path p.1) p.2 := refSet_plain m p.1.2 p.2
    simp only [List.map_cons, List.foldl_cons, assigns_cons, PlainSet.call,
      PlainSet.note, hp]
    exact ih _

end UniTempGen

inductive Edit where
  | set (key : PlainKey) (value : WvString)
  | setv (pairs : List PlainSet)
  | baseSet (key : UniConfKey) (value : WvString)

def Edit.pending : Edit → List PlainSet
  | .set key value => [(key, value)]
  | .setv pairs => pairs
  | .baseSet _ _ => []

def Edit.direct : Edit → List (UniConfKey × WvString)
  | .baseSet key value => [(key, value)]
  | _ => []

namespace UniTransactionGen

/-- The generator after an edit, and the announcements to its listeners. -/
def edit (g : UniTransactionGen) : Edit → UniTransactionGen × List Delta
  | .set key value => g.set key value
  | .setv pairs => g.setv (pairs.map PlainSet.call)
  | .baseSet key value => g.baseSet key value

def edits (g : UniTransactionGen) (es : List Edit) : UniTransactionGen :=
  es.foldl (fun g e => (g.edit e).1) g

/-- What sets of the transaction do: the base stays, and over any base the pending changes
now also carry out the new sets. -/
structure Stored (g : UniTransactionGen) (sets : List PlainSet) (g' : UniTransactionGen) :
    Prop where
  base : g'.base = g.base
  overlay : ∀ m, overlay g'.root m = assigns [] (overlay g.root m) (sets.map PlainSet.note)
  coherent : Coherent g'.root g'.base.content

variable {g : UniTransactionGen}

theorem stored_set (h : Coherent g.root g.base.content) (key : PlainKey) (value : WvString) :
    Stored g [(key, value)] (g.set key value).1 where
  base := rfl
  overlay m := overlay_setChange g value UniConfKey.plain_nil g.root key.2 m
  coherent := coherent_setChange g value UniConfKey.plain_nil h key.2

theorem stored_setv (h : Coherent g.root g.base.content) (pairs : List PlainSet) :
    Stored g pairs (g.setv (pairs.map PlainSet.call)).1 := by
  induction pairs generalizing g with
  | nil => exact ⟨rfl, fun _ => rfl, h⟩
  | cons p pairs ih =>
    have hfirst := stored_set h p.1 p.2
    have hrest := ih hfirst.coherent
    constructor
    · exact hrest.base.trans hfirst.base
    · intro m
      have h1 := hrest.overlay m
      rw [hfirst.overlay] at h1
      exact h1
    · exact hrest.coherent

/-- An edit changes the base by its direct sets, and the pending changes by its sets. -/
theorem edit_spec (h : Coherent g.root g.base.content) (e : Edit) :
    (g.edit e).1.base = g.base.setv e.direct ∧ (∀ m, overlay (g.edit e).1.root m =
        assigns [] (overlay g.root m) (e.pending.map PlainSet.note)) ∧
      Coherent (g.edit e).1.root (g.edit e).1.base.content := by
  cases e with
  | set key value =>
    have hstored := stored_set h key value
    exact ⟨hstored.base, hstored.overlay, hstored.coherent⟩
  | setv pairs =>
    have hstored := stored_setv h pairs
    exact ⟨hstored.base, hstored.overlay, hstored.coherent⟩
  | baseSet key value =>
    obtain ⟨hbase, hheard, -⟩ := baseSet_heard g h key value
    refine ⟨hbase, ?_, ?_⟩
    · intro m
      funext p
      exact hheard.visible p (m p)
    · have hcoherent := hheard.coherent
      rw [← hbase] at hcoherent
      exact hcoherent

theorem edits_spec (h : Coherent g.root g.base.content) (es : List Edit) :
    (g.edits es).base = g.base.setv (es.flatMap Edit.direct) ∧ (∀ m, overlay (g.edits es).root m =
        assigns [] (overlay g.root m) ((es.flatMap Edit.pending).map PlainSet.note)) ∧
      Coherent (g.edits es).root (g.edits es).base.content := by
  induction es generalizing g with
  | nil => exact ⟨rfl, fun _ => rfl, h⟩
  | cons e es ih =>
    obtain ⟨hbase, hover, hcoherent⟩ := edit_spec h e
    obtain ⟨hbase', hover', hcoherent'⟩ := ih hcoherent
    refine ⟨?_, ?_, hcoherent'⟩
    · show ((g.edit e).1.edits es).base = _
      rw [hbase', hbase, List.flatMap_cons, UniTempGen.setv, UniTempGen.setv, UniTempGen.setv,
        List.foldl_append]
    · intro m
      have h1 := hover' m
      rw [hover, ← assigns_append, ← List.map_append] at h1
      exact h1

def replay (base : UniTempGen) (es : List Edit) : UniTempGen :=
  base.setv ((es.flatMap Edit.pending).map PlainSet.call)

theorem content_replay (base : UniTempGen) (es : List Edit) :
    (replay ((create base).edits es).base es).content = ((create base).edits es).view := by
  have hover := (edits_spec (g := create base) (coherent_none _) es).2.1
  have hview := hover ((create base).edits es).base.content
  rw [replay, UniTempGen.content_setv_plain]
  exact (hview.trans (by rw [create, overlay_none])).symm

/-- The transaction reads as the base's current content with the pending sets replayed on
it, in `get` and in `iterator`. -/
theorem view_refines_replay (base : UniTempGen) (es : List Edit) :
    let g := (create base).edits es
    g.base = base.setv (es.flatMap Edit.direct) ∧
      ∀ key : PlainKey, g.get key = (replay g.base es).get key ∧
        ((g.iterator key).map UniConfTree.foldName).Perm
          (((replay g.base es).iterator key).map UniConfTree.foldName) := by
  intro g
  obtain ⟨hbase, -, hcoherent⟩ := edits_spec (g := create base) (coherent_none _) es
  have hcontent : (replay g.base es).content = g.view := content_replay base es
  refine ⟨hbase, ?_⟩
  intro key
  constructor
  · rw [get_eq g key.2, UniTempGen.get_of_plain _ key.2, hcontent]
  · have hlists := (replay g.base es).lists_iterator key
    rw [hcontent] at hlists
    exact (lists_iterator g hcoherent key.2).perm hlists

end UniTransactionGen

end WvStreams
