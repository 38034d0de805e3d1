import WvStreams.UniConf.Announce
import WvStreams.UniConf.RecursiveIter

/-!
# `UniListGen`

A stack of generators, here `UniTempGen`s: a key has the value that it has in the first
generator where it exists. The view is a map (`overlay`), the iterator lists its children
(`children_iterator`), and the announcements that are forwarded lead from one view to the next
(`overlay_run`).
-/

namespace WvStreams

open Lib UniTempGen UniConfKey List

abbrev UniListGen := List UniTempGen

namespace UniListGen

/-- The generator itself, in the order of the list. -/
def get (l : UniListGen) (key : UniConfKey) : WvString :=
  match l with
  | [] => none
  | g :: l => if g.exists_ key then g.get key else get l key

def exists_ (l : UniListGen) (key : UniConfKey) : Bool := l.any fun g => g.exists_ key

def haschildren (l : UniListGen) (key : UniConfKey) : Bool :=
  l.any fun g => UniTempGen.gen.haschildren key g

/-- What is forwarded for an announcement. -/
def gencallback (l : UniListGen) (d : Delta) : Delta := ⟨d.key, l.get d.key⟩

/-- A call of `set` of the generator at some place, and what is forwarded of it. -/
def innerSet (l : UniListGen) (i : Nat) (key : UniConfKey) (value : WvString) :
    UniListGen × List Delta :=
  match l[i]? with
  | none => (l, [])
  | some g =>
    let (g, ds) := g.set key value
    let l := List.set l i g
    (l, ds.map (gencallback l))

def set (l : UniListGen) (key : UniConfKey) (value : WvString) : UniListGen × List Delta :=
  (List.range l.length).foldl (fun r i =>
    let (l, ds) := innerSet r.1 i key value
    (l, r.2 ++ ds)) (l, [])

/-- What `next` comes to in one inner iterator; `d` are the keys that were returned. -/
def IterIter.nexts (d : List UniConfKey) :
    List (Segment × WvString) → List (Segment × WvString) × List UniConfKey
  | [] => ([], d)
  | c :: cs =>
    -- each key is only returned once, from the top item in the list
    if d.any fun k => k.same [c.1] then IterIter.nexts d cs
    else
      let (out, d) := IterIter.nexts (d ++ [[c.1]]) cs
      (c :: out, d)

def IterIter.all (d : List UniConfKey) :
    List (List (Segment × WvString)) → List (Segment × WvString)
  | [] => []
  | it :: l =>
    let (out, d) := IterIter.nexts d it
    out ++ IterIter.all d l

/-- Null iterators are left out. -/
def iterator (l : UniListGen) (key : UniConfKey) : List (Segment × WvString) :=
  IterIter.all [] (l.filterMap fun g => UniTempGen.gen.iterator key g)

def overlay (l : UniListGen) : PathMap Segment Str := fun p => l.findSome? fun g => g.content p

theorem get_eq_findSome? (l : UniListGen) (key : UniConfKey) :
    l.get key = l.findSome? fun g => g.get key := by
  induction l with
  | nil => rfl
  | cons g l ih =>
    rw [get, findSome?_cons, UniTempGen.exists_]
    cases h : g.get key with
    | none => exact ih
    | some v => rfl

theorem get_eq (l : UniListGen) (key : UniConfKey) :
    l.get key = UniTempGen.refGet l.overlay key := by
  rw [get_eq_findSome?, UniTempGen.refGet]
  split
  · rename_i h
    rw [findSome?_eq_none_iff]
    intro g _
    rw [UniTempGen.get_eq, UniTempGen.refGet, if_pos h]
  · rename_i h
    simp only [UniTempGen.get_eq, UniTempGen.refGet, if_neg h]
    rfl

theorem overlay_set {l : UniListGen} {i : Nat} {g g' : UniTempGen} (hg : l[i]? = some g)
    {p : List Segment} (h : g'.content p = g.content p) :
    overlay (List.set l i g') p = l.overlay p := by
  unfold overlay
  induction l generalizing i with
  | nil => cases hg
  | cons g₀ l ih =>
    cases i with
    | zero =>
      cases hg
      rw [set_cons_zero, findSome?_cons, findSome?_cons, h]
    | succ i =>
      rw [set_cons_succ, findSome?_cons, findSome?_cons, ih hg]

theorem overlay_innerSet (l : UniListGen) (i : Nat) (key : UniConfKey) (value : WvString) :
    listen l.overlay (l.innerSet i key value).2 = (l.innerSet i key value).1.overlay := by
  unfold innerSet
  cases hg : l[i]? with
  | none => rfl
  | some g =>
    have hsteps := steps_set g key value
    funext p
    apply tell_eq
    · intro d hd hpath
      obtain ⟨d, hmem, rfl⟩ := List.mem_map.mp hd
      show get _ d.key = _
      rw [get_eq, refGet, (mem_set hmem).1.not_slash, ← hpath]
      rfl
    · by_cases hp : ∃ d ∈ (g.set key value).2, d.key.path = p
      · obtain ⟨d, hd, hpath⟩ := hp
        exact Or.inr ⟨_, mem_map_of_mem hd, hpath⟩
      · left
        have hsame : (g.set key value).1.content p = g.content p := by
          apply hsteps.eq_of_not_mem
          intro n hn he
          obtain ⟨d, hd, rfl⟩ := List.mem_map.mp hn
          exact hp ⟨d, hd, he⟩
        exact (overlay_set hg hsame).symm

theorem overlay_sets (l : UniListGen) (key : UniConfKey) (value : WvString) :
    listen l.overlay (l.set key value).2 = (l.set key value).1.overlay := by
  have hloop : ∀ (is : List Nat) (r : UniListGen × List Delta), listen l.overlay r.2 = r.1.overlay →
      let r := is.foldl (fun r i =>
        let (l, ds) := innerSet r.1 i key value
        (l, r.2 ++ ds)) r
      listen l.overlay r.2 = r.1.overlay := by
    intro is
    induction is with
    | nil => exact fun _ h => h
    | cons i is ih =>
      intro r h
      apply ih
      show listen l.overlay (r.2 ++ (innerSet r.1 i key value).2) = _
      rw [listen_append, h]
      exact overlay_innerSet r.1 i key value
  exact hloop _ (l, []) rfl

namespace IterIter

/-- A key with this name, folded, was returned. -/
def seen (d : List UniConfKey) (s : Segment) : Bool := d.any fun k => k.map fold == [s]

def first (s : Segment) (cs : List (Segment × WvString)) : Option (Segment × WvString) :=
  cs.find? fun c => fold c.1 = s

theorem nexts_cons (d : List UniConfKey) (c : Segment × WvString) (cs : List (Segment × WvString)) :
    nexts d (c :: cs) = if seen d (fold c.1) then nexts d cs
      else (c :: (nexts (d ++ [[c.1]]) cs).1, (nexts (d ++ [[c.1]]) cs).2) := rfl

theorem seen_concat (d : List UniConfKey) (t s : Segment) :
    seen (d ++ [[t]]) s = (seen d s || fold t == s) := by
  simp [seen, any_append]

theorem nexts_append (d : List UniConfKey) (as bs : List (Segment × WvString)) :
    nexts d (as ++ bs) =
      ((nexts d as).1 ++ (nexts (nexts d as).2 bs).1, (nexts (nexts d as).2 bs).2) := by
  induction as generalizing d with
  | nil => rfl
  | cons c as ih =>
    rw [cons_append, nexts_cons, nexts_cons]
    split
    · exact ih d
    · rw [ih]
      rfl

theorem all_eq (d : List UniConfKey) (l : List (List (Segment × WvString))) :
    all d l = (nexts d l.flatten).1 := by
  induction l generalizing d with
  | nil => rfl
  | cons it l ih =>
    rw [flatten_cons, nexts_append, all]
    show _ ++ all (nexts d it).2 l = _
    rw [ih]

theorem nexts_distinct (d : List UniConfKey) (cs : List (Segment × WvString)) :
    (∀ c ∈ (nexts d cs).1, seen d (fold c.1) = false) ∧
      (nexts d cs).1.Pairwise fun a b => fold a.1 ≠ fold b.1 := by
  induction cs generalizing d with
  | nil => exact ⟨nofun, List.Pairwise.nil⟩
  | cons c cs ih =>
    rw [nexts_cons]
    split
    · exact ih d
    · rename_i hc
      obtain ⟨hnew, hpair⟩ := ih (d ++ [[c.1]])
      simp only [seen_concat, Bool.or_eq_false_iff, beq_eq_false_iff_ne, ne_eq] at hnew
      refine ⟨?_, pairwise_cons.mpr ⟨fun b hb => (hnew b hb).2, hpair⟩⟩
      exact forall_mem_cons.mpr ⟨by simpa using hc, fun b hb => (hnew b hb).1⟩

theorem first_nexts (d : List UniConfKey) (cs : List (Segment × WvString)) {s : Segment}
    (hs : seen d s = false) : first s (nexts d cs).1 = first s cs := by
  induction cs generalizing d with
  | nil => rfl
  | cons c cs ih =>
    rw [nexts_cons]
    by_cases hc : fold c.1 = s
    · rw [hc, hs, if_neg Bool.false_ne_true, first, first, find?_cons_of_pos (by simpa using hc),
        find?_cons_of_pos (by simpa using hc)]
    · have hskip : first s (c :: cs) = first s cs := find?_cons_of_neg (by simpa using hc)
      rw [hskip]
      split
      · exact ih d hs
      · have hskip' : ∀ out, first s (c :: out) = first s out :=
          fun out => find?_cons_of_neg (by simpa using hc)
        rw [hskip', ih _ (by rw [seen_concat, hs]; simpa using hc)]

theorem mem_nexts {d : List UniConfKey} {cs : List (Segment × WvString)} {c : Segment × WvString}
    (hc : c ∈ (nexts d cs).1) : c ∈ cs := by
  induction cs generalizing d with
  | nil => cases hc
  | cons b cs ih =>
    rw [nexts_cons] at hc
    split at hc
    · exact mem_cons_of_mem _ (ih hc)
    · rcases mem_cons.mp hc with rfl | hc
      · exact mem_cons_self
      · exact mem_cons_of_mem _ (ih hc)

theorem first_of_mem {cs : List (Segment × WvString)}
    (hcs : cs.Pairwise fun a b => fold a.1 ≠ fold b.1) {c : Segment × WvString} (hc : c ∈ cs) :
    first (fold c.1) cs = some c := by
  induction cs with
  | nil => cases hc
  | cons b cs ih =>
    obtain ⟨hb, hcs⟩ := pairwise_cons.mp hcs
    rcases mem_cons.mp hc with rfl | hmem
    · exact find?_cons_of_pos (by simp)
    · rw [first, find?_cons_of_neg (by simpa using hb c hmem)]
      exact ih hcs hmem

end IterIter

theorem first_iterators (l : UniListGen) (key : UniConfKey) (s : Segment) :
    (IterIter.first s (l.filterMap fun g => gen.iterator key g).flatten).map Prod.snd =
      (l.overlay (key.path ++ [s])).map some := by
  induction l with
  | nil => rfl
  | cons g l ih =>
    have hhead : ((g :: l).filterMap fun g => gen.iterator key g).flatten =
        (gen.iterator key g).getD [] ++ (l.filterMap fun g => gen.iterator key g).flatten := by
      cases hit : gen.iterator key g with
      | none =>
        rw [filterMap_cons_none hit]
        rfl
      | some it =>
        rw [filterMap_cons_some hit]
        rfl
    have hlists := g.lists_iterator key
    have hoverlay : overlay (g :: l) (key.path ++ [s]) =
        (g.content (key.path ++ [s])).or (overlay l (key.path ++ [s])) := by
      rw [overlay, findSome?_cons]
      cases g.content (key.path ++ [s]) <;> rfl
    rw [hhead, gen_iterator, IterIter.first, find?_append, hoverlay]
    cases hfirst : find? (fun c => decide (fold c.1 = s))
        ((g.iterator key).map fun c => (c.1, some c.2)) with
    | some c =>
      have hname : fold c.1 = s := by simpa using find?_some hfirst
      obtain ⟨c, hc, rfl⟩ := List.mem_map.mp (mem_of_find?_eq_some hfirst)
      rw [(hlists.mem s c.2).mp ⟨c.1, hname, hc⟩]
      rfl
    | none =>
      have hnone : g.content (key.path ++ [s]) = none := by
        by_contra hne
        obtain ⟨v, hv⟩ := Option.ne_none_iff_exists'.mp hne
        obtain ⟨name, hname, hmem⟩ := (hlists.mem s v).mpr hv
        have hnot := find?_eq_none.mp hfirst _ (mem_map_of_mem hmem)
        simp [hname] at hnot
      rw [hnone]
      exact ih

/-- What an iterator is to give for a key: every child that exists, once, with its value. -/
structure Enumerates (l : UniListGen) (key : UniConfKey) (cs : List (Segment × WvString)) : Prop where
  distinct : cs.Pairwise fun a b => fold a.1 ≠ fold b.1
  value : ∀ c ∈ cs, c.1 ≠ [] ∧ c.2 ≠ none ∧ l.get (UniConfKey.concat key [c.1]) = c.2
  complete : ∀ name : Segment, name ≠ [] → l.get (UniConfKey.concat key [name]) ≠ none →
    ∃ c ∈ cs, fold c.1 = fold name

theorem get_child (l : UniListGen) (key : UniConfKey) {name : Segment} (h : name ≠ []) :
    l.get (concat key [name]) = l.overlay (key.path ++ [fold name]) := by
  have hfilter : Plain (key.filter (· ≠ [])) := by simp [Plain]
  have hkey : concat key [name] = key.filter (· ≠ []) ++ [name] := by
    rw [← concat_name hfilter h]
    simp [UniConfKey.concat, filter_filter]
  have hplain : Plain (key.filter (· ≠ []) ++ [name]) := hfilter.concat h
  have hslash : hastrailingslash (concat key [name]) = false := by
    rw [hkey, hplain.not_slash]
  rw [get_eq, refGet, hslash, path_concatKey, path_cons_of_ne h, path_nil]
  rfl

open IterIter

theorem iterator_enumerates (l : UniListGen) (key : UniConfKey) :
    l.Enumerates key (l.iterator key) := by
  have hall : l.iterator key =
      (nexts [] (l.filterMap fun g => gen.iterator key g).flatten).1 :=
    all_eq [] _
  have hdistinct := (nexts_distinct []
    (l.filterMap fun g => gen.iterator key g).flatten).2
  have hfirst : ∀ s, (first s (l.iterator key)).map Prod.snd =
      (l.overlay (key.path ++ [s])).map some := by
    intro s
    rw [hall, first_nexts [] _ rfl, first_iterators]
  rw [← hall] at hdistinct
  refine ⟨hdistinct, ?_, ?_⟩
  · intro c hc
    have hne : c.1 ≠ [] := by
      rw [hall] at hc
      obtain ⟨it, hit, hmem⟩ := mem_flatten.mp (mem_nexts hc)
      obtain ⟨g, -, hg⟩ := mem_filterMap.mp hit
      have hmem' : c ∈ (gen.iterator key g).getD [] := by
        rw [hg]
        exact hmem
      rw [gen_iterator] at hmem'
      obtain ⟨b, hb, rfl⟩ := List.mem_map.mp hmem'
      exact ne_nil_of_mem_iterator hb
    have hfound := hfirst (fold c.1)
    rw [first_of_mem hdistinct hc, Option.map_some, eq_comm, Option.map_eq_some_iff] at hfound
    obtain ⟨v, hv, hval⟩ := hfound
    refine ⟨hne, ?_, ?_⟩
    · rw [← hval]
      exact Option.some_ne_none v
    · rw [get_child l key hne, hv, hval]
  · intro name hname hget
    rw [get_child l key hname] at hget
    obtain ⟨v, hv⟩ := Option.ne_none_iff_exists'.mp hget
    have hfound := hfirst (fold name)
    rw [hv, Option.map_some, Option.map_eq_some_iff] at hfound
    obtain ⟨c, hc, -⟩ := hfound
    exact ⟨c, mem_of_find?_eq_some hc, by simpa using find?_some hc⟩

inductive Op where
  | set (key : UniConfKey) (value : WvString)
  | innerSet (i : Nat) (key : UniConfKey) (value : WvString)

def op (l : UniListGen) : Op → UniListGen × List Delta
  | .set key value => l.set key value
  | .innerSet i key value => l.innerSet i key value

/-- The stack, and a mirror that listens to it. -/
def run (s : UniListGen × PathMap Segment Str) (os : List Op) : UniListGen × PathMap Segment Str :=
  os.foldl (fun s o =>
    let (l, ds) := s.1.op o
    (l, listen s.2 ds)) s

theorem run_overlay (l : UniListGen) (os : List Op) :
    (run (l, l.overlay) os).2 = (run (l, l.overlay) os).1.overlay := by
  have hrun : ∀ (os : List Op) (s : UniListGen × PathMap Segment Str), s.2 = s.1.overlay →
      (run s os).2 = (run s os).1.overlay := by
    intro os
    induction os with
    | nil => exact fun _ h => h
    | cons o os ih =>
      intro s h
      apply ih
      show listen s.2 (s.1.op o).2 = (s.1.op o).1.overlay
      rw [h]
      cases o with
      | set key value => exact overlay_sets s.1 key value
      | innerSet i key value => exact overlay_innerSet s.1 i key value
  exact hrun os _ rfl

/-- At any time `get` finds the value of the first generator that has the key, the iterator gives
the children in the view with their values, and a mirror of the announcements is the view. -/
theorem overlay_run (l : UniListGen) (os : List Op) :
    let s := run (l, l.overlay) os
    (∀ key, s.1.get key = (s.1.find? fun g => g.exists_ key).bind fun g => g.get key) ∧
      (∀ key, s.1.Enumerates key (s.1.iterator key)) ∧ ∀ key, s.1.get key = refGet s.2 key := by
  intro s
  refine ⟨?_, fun key => iterator_enumerates s.1 key, ?_⟩
  · intro key
    have hfind : ∀ l : UniListGen,
        l.get key = (l.find? fun g => g.exists_ key).bind fun g => g.get key := by
      intro l
      induction l with
      | nil => rfl
      | cons g l ih =>
        rw [get, find?_cons]
        split
        · rename_i h
          rw [h]
          rfl
        · rename_i h
          rw [Bool.eq_false_iff.mpr h]
          exact ih
    exact hfind s.1
  · intro key
    rw [get_eq, run_overlay l os]

end UniListGen

end WvStreams
