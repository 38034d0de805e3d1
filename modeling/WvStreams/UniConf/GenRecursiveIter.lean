import WvStreams.Lib.Preorder
import WvStreams.UniConf.RecursiveIter

/-!
# `_UniConfGenRecursiveIter`

The default `recursiveiterator` of a generator, which has a stack of iterators over one level
each. What is still to come for it are the keys that the iterators of the stack have not reached
(`RecursiveIter.work`), and `next` takes the first of them and puts its children in its place
(`next_cons`): the keys come in preorder (`recursiveiterator_visits`), also in a loop that changes
the generator elsewhere (`loop_ends`).
-/

namespace WvStreams

open Lib UniConfKey List UniTempGen UniConfKey

/-- An iterator over the children of a key: those to come, and its `key()`. -/
structure OneLevel where
  rest : List Segment
  cur : UniConfKey := []

structure RecursiveIter where
  itlist : List OneLevel := []
  top : UniConfKey
  current : UniConfKey := []
  sub_next : Bool := false

namespace RecursiveIter

variable {σ : Type} (gen : IUniConfGen σ) (s : σ)

def open_ (key : UniConfKey) : Option OneLevel :=
  (gen.iterator key s).map fun children => { rest := children.map Prod.fst }

def rewind (it : RecursiveIter) : RecursiveIter :=
  { it with current := [], sub_next := false, itlist := (open_ gen s it.top).toList }

/-- The part of `next` that goes into the subtree of the current key. -/
def enter (it : RecursiveIter) : RecursiveIter :=
  match it.itlist with
  | [] => it
  | first :: _ =>
    let subkey := first.cur
    let newkey := concat it.current subkey
    match open_ gen s (concat it.top newkey) with
    | none => it
    | some newsub =>
      { it with current := UniConfKey.append it.current subkey, itlist := newsub :: it.itlist }

/-- The loop of `next`: iterators that are at their end are unlinked. -/
def seek : UniConfKey → List OneLevel → UniConfKey × List OneLevel × Bool
  | current, [] => (current, [], false)
  | current, i :: itlist =>
    match i.rest with
    | name :: rest => (current, ⟨rest, [name]⟩ :: itlist, true)
    | [] => seek current.removelast itlist

def next (it : RecursiveIter) : RecursiveIter × Bool :=
  let it := if it.sub_next then enter gen s { it with sub_next := false } else it
  let (current, itlist, more) := seek it.current it.itlist
  ({ it with current, itlist, sub_next := more }, more)

def key (it : RecursiveIter) : UniConfKey :=
  match it.itlist with
  | first :: _ => concat it.current first.cur
  | [] => it.current

def value (it : RecursiveIter) : WvString := gen.get (concat it.top it.key) s

/-- Calls of `next`, as many as allowed, until it returns `false`: the keys with their values, and
whether it did so. -/
def iterate : Nat → RecursiveIter → List (UniConfKey × WvString) × Bool
  | 0, _ => ([], false)
  | n + 1, it =>
    let (it, more) := it.next gen s
    if more then
      let (yields, ended) := iterate n it
      ((it.key, it.value gen s) :: yields, ended)
    else ([], true)

/-- The keys of the children of a key, relative to the top. -/
def expand (top key : UniConfKey) : List UniConfKey :=
  let children := gen.iterator (if key = [] then top else concat top key) s
  (children.getD []).map fun child => key ++ [child.1]

/-- The keys that the iterators of the stack have not reached. -/
def pending : UniConfKey → List OneLevel → List UniConfKey
  | _, [] => []
  | current, i :: itlist =>
    i.rest.map (fun name => current ++ [name]) ++ pending current.dropLast itlist

def work (it : RecursiveIter) : List UniConfKey :=
  (if it.sub_next then expand gen s it.top it.key else []) ++ pending it.current it.itlist

/-- The names in the stack are not empty, and before the subtree of a key is entered there is such
a key. -/
structure Steady (it : RecursiveIter) : Prop where
  plain : it.current.Plain
  names : ∀ i ∈ it.itlist, ∀ name ∈ i.rest, name ≠ []
  entered : it.sub_next = true →
    ∃ first itlist name, it.itlist = first :: itlist ∧ first.cur = [name] ∧ name ≠ []

def Named : Prop := ∀ key, ∀ child ∈ (gen.iterator key s).getD [], child.1 ≠ []

variable {gen s}

variable {current : UniConfKey}

theorem append_name (h : current.Plain) {name : Segment} (hname : name ≠ []) :
    append current [name] = current ++ [name] := by
  have hslash : hastrailingslash [name] = false := by
    simpa [hastrailingslash] using hname
  have hfilter : filter (fun x => decide (x ≠ ([] : Segment))) [name] = [name] := by
    simp [hname]
  rw [append, hslash, hfilter]
  simpa [isempty] using (h.concat hname).collapse_eq

theorem rest_open {key : UniConfKey} {i : OneLevel} (h : i ∈ open_ gen s key) :
    i.rest = ((gen.iterator key s).getD []).map Prod.fst := by
  obtain ⟨children, hchildren, rfl⟩ := Option.map_eq_some_iff.mp h
  rw [hchildren]
  rfl

theorem removelast_plain (h : current.Plain) :
    current.removelast = current.dropLast ∧ Plain current.dropLast := by
  have hplain : Plain current.dropLast := fun hmem => h (mem_of_mem_dropLast hmem)
  exact ⟨hplain.collapse_eq, hplain⟩

variable {it : RecursiveIter}

theorem enter_spec (hnamed : Named gen s) (h : Steady it) (hsub : it.sub_next = true) :
    let it' := enter gen s { it with sub_next := false }
    pending it'.current it'.itlist = work gen s it ∧ it'.current.Plain ∧ it'.top = it.top ∧
      ∀ i ∈ it'.itlist, ∀ name ∈ i.rest, name ≠ [] := by
  obtain ⟨first, itlist, name, hitlist, hcur, hname⟩ := h.entered hsub
  have hkey : it.key = it.current ++ [name] := by
    rw [key, hitlist]
    dsimp only
    rw [hcur, concat_name h.plain hname]
  have hne : it.current ++ [name] ≠ [] := by simp
  have hnames : ∀ i ∈ first :: itlist, ∀ name ∈ i.rest, name ≠ [] := hitlist ▸ h.names
  rw [work, hsub, if_pos rfl, hkey, expand, if_neg hne, enter, hitlist]
  dsimp only
  rw [hcur, concat_name h.plain hname]
  cases hopen : open_ gen s (it.top.concat (it.current ++ [name])) with
  | none =>
    have hnone : gen.iterator (it.top.concat (it.current ++ [name])) s = none :=
      Option.map_eq_none_iff.mp hopen
    rw [hnone]
    exact ⟨rfl, h.plain, rfl, hnames⟩
  | some newsub =>
    have hrest := rest_open hopen
    rw [append_name h.plain hname]
    refine ⟨?_, h.plain.concat hname, rfl, ?_⟩
    · rw [pending, hrest, map_map, dropLast_concat]
      rfl
    · refine forall_mem_cons.mpr ⟨fun child hchild => ?_, hnames⟩
      rw [hrest] at hchild
      obtain ⟨c, hc, rfl⟩ := List.mem_map.mp hchild
      exact hnamed _ c hc

theorem seek_nil (hplain : current.Plain) {itlist : List OneLevel}
    (h : pending current itlist = []) : (seek current itlist).2.2 = false := by
  induction itlist generalizing current with
  | nil => rfl
  | cons i itlist ih =>
    obtain ⟨hlast, hplain'⟩ := removelast_plain hplain
    obtain ⟨hrest, hpending⟩ := append_eq_nil_iff.mp h
    rw [seek, map_eq_nil_iff.mp hrest]
    rw [hlast]
    exact ih hplain' hpending

theorem seek_cons (hplain : current.Plain) {itlist : List OneLevel}
    (hnames : ∀ i ∈ itlist, ∀ name ∈ i.rest, name ≠ []) {k : UniConfKey} {work : List UniConfKey}
    (h : pending current itlist = k :: work) :
    ∃ current' rest name itlist', seek current itlist = (current', ⟨rest, [name]⟩ :: itlist', true) ∧
      k = current' ++ [name] ∧ work = pending current' (⟨rest, [name]⟩ :: itlist') ∧
      current'.Plain ∧ name ≠ [] ∧
      ∀ i ∈ (⟨rest, [name]⟩ : OneLevel) :: itlist', ∀ name ∈ i.rest, name ≠ [] := by
  induction itlist generalizing current with
  | nil => cases h
  | cons i itlist ih =>
    obtain ⟨hi, hitlist⟩ := forall_mem_cons.mp hnames
    obtain ⟨rest, cur⟩ := i
    cases rest with
    | nil =>
      obtain ⟨hlast, hplain'⟩ := removelast_plain hplain
      rw [seek]
      rw [hlast]
      exact ih hplain' hitlist h
    | cons name rest =>
      obtain ⟨hname, hrest⟩ := forall_mem_cons.mp hi
      obtain ⟨rfl, rfl⟩ := cons_eq_cons.mp h
      exact ⟨current, rest, name, itlist, rfl, rfl, rfl, hplain, hname,
        forall_mem_cons.mpr ⟨hrest, hitlist⟩⟩

theorem next_eq_seek (hnamed : Named gen s) (h : Steady it) :
    ∃ current itlist, pending current itlist = work gen s it ∧ current.Plain ∧
      (∀ i ∈ itlist, ∀ name ∈ i.rest, name ≠ []) ∧ it.next gen s = ({ it with
          current := (seek current itlist).1
          itlist := (seek current itlist).2.1
          sub_next := (seek current itlist).2.2 }, (seek current itlist).2.2) := by
  cases hsub : it.sub_next with
  | true =>
    obtain ⟨hwork, hplain, htop, hnames⟩ := enter_spec hnamed h hsub
    refine ⟨_, _, hwork, hplain, hnames, ?_⟩
    rw [next, hsub, if_pos rfl]
    rw [htop]
  | false =>
    refine ⟨it.current, it.itlist, ?_, h.plain, h.names, ?_⟩
    · rw [work, hsub]
      rfl
    · rw [next, hsub]
      rfl

theorem next_nil (hnamed : Named gen s) (h : Steady it)
    (hwork : work gen s it = []) : (it.next gen s).2 = false := by
  obtain ⟨current, itlist, hpending, hplain, -, hnext⟩ := next_eq_seek hnamed h
  rw [hnext]
  exact seek_nil hplain (hpending.trans hwork)

theorem next_cons (hnamed : Named gen s) (h : Steady it) {k : UniConfKey}
    {rest : List UniConfKey} (hwork : work gen s it = k :: rest) :
    let it' := (it.next gen s).1
    (it.next gen s).2 = true ∧ it'.key = k ∧ k.Plain ∧ it'.top = it.top ∧ Steady it' ∧
      ∀ r, work gen r it' = expand gen r it.top k ++ rest := by
  obtain ⟨current, itlist, hpending, hplain, hnames, hnext⟩ := next_eq_seek hnamed h
  obtain ⟨current', names, name, itlist', hseek, rfl, rfl, hplain', hname, hnames'⟩ :=
    seek_cons hplain hnames (hpending.trans hwork)
  have hkey : concat current' [name] = current' ++ [name] :=
    concat_name hplain' hname
  rw [hnext, hseek]
  refine ⟨rfl, hkey, hplain'.concat hname, rfl,
    ⟨hplain', hnames', fun _ => ⟨_, _, name, rfl, rfl, hname⟩⟩, fun r => ?_⟩
  rw [← hkey]
  rfl

theorem iterate_eq (hnamed : Named gen s) (h : Steady it) (n : Nat) :
    iterate gen s n it =
      ((visit (expand gen s it.top) n (work gen s it)).1.map fun k =>
          (k, gen.get (it.top.concat k) s), (visit (expand gen s it.top) n (work gen s it)).2) := by
  induction n generalizing it with
  | zero => rfl
  | succ n ih =>
    cases hwork : work gen s it with
    | nil =>
      rw [iterate]
      dsimp only
      rw [next_nil hnamed h hwork]
      rfl
    | cons k rest =>
      obtain ⟨hmore, hkey, -, htop, hsteady, hwork'⟩ := next_cons hnamed h hwork
      rw [iterate]
      dsimp only
      rw [hmore, if_pos rfl, ih hsteady, hwork', htop, value, hkey, htop]
      rfl

/-- `iterator` lists the children of a key, each of them once. -/
structure Lists (gen : IUniConfGen σ) (s : σ) (Child : List Segment → Segment → Prop) : Prop where
  named : Named gen s
  mem : ∀ key name,
    Child (UniConfKey.path key) name ↔ ∃ c ∈ (gen.iterator key s).getD [], fold c.1 = name
  once : ∀ key, (((gen.iterator key s).getD []).map fun c => fold c.1).Nodup

theorem Lists.expands {Child : List Segment → Segment → Prop} (h : Lists gen s Child)
    (top : UniConfKey) : Expands (fun p => Child (top.path ++ p)) path (expand gen s top) := by
  have hpath : ∀ key : UniConfKey, path (if key = [] then top else top.concat key) =
        top.path ++ key.path := by
    intro key
    split
    · rename_i hkey
      rw [hkey, path_nil, append_nil]
    · exact path_concatKey top key
  have hchild : ∀ key : UniConfKey, (expand gen s top key).map path =
      (((gen.iterator (if key = [] then top else top.concat key) s).getD []).map
        fun c => fold c.1).map fun name => key.path ++ [name] := by
    intro key
    rw [expand, map_map, map_map]
    apply map_congr_left
    intro c hc
    exact path_concat key (h.named _ c hc) rfl
  constructor
  · intro key p
    rw [hchild, List.mem_map, ← hpath]
    constructor
    · rintro ⟨name, hname, rfl⟩
      obtain ⟨c, hc, hfold⟩ := List.mem_map.mp hname
      exact ⟨name, (h.mem _ name).mpr ⟨c, hc, hfold⟩, rfl⟩
    · rintro ⟨name, hname, rfl⟩
      obtain ⟨c, hc, hfold⟩ := (h.mem _ name).mp hname
      exact ⟨name, List.mem_map.mpr ⟨c, hc, hfold⟩, rfl⟩
  · intro key
    rw [hchild]
    apply (h.once _).map
    intro name name' he
    simpa using he

theorem steady_rewind (hnamed : Named gen s) (top : UniConfKey) :
    Steady (rewind gen s { top }) ∧ work gen s (rewind gen s { top }) = expand gen s top [] := by
  cases hopen : open_ gen s top with
  | none =>
    have hnone : gen.iterator top s = none := Option.map_eq_none_iff.mp hopen
    rw [rewind, hopen]
    refine ⟨⟨plain_nil, fun i hi => (nomatch hi), nofun⟩, ?_⟩
    rw [expand, if_pos rfl, hnone]
    rfl
  | some i =>
    have hrest := rest_open hopen
    rw [rewind, hopen]
    refine ⟨⟨plain_nil, ?_, nofun⟩, ?_⟩
    · intro i' hi' name hname
      obtain rfl := mem_singleton.mp hi'
      rw [hrest] at hname
      obtain ⟨c, hc, rfl⟩ := List.mem_map.mp hname
      exact hnamed _ c hc
    · show i.rest.map (fun name => [] ++ [name]) ++ [] = _
      rw [hrest, append_nil, map_map, expand, if_pos rfl]
      rfl

/-- However often `next` is called, the keys are strict descendants of the top, none of them comes
twice or before its parent, and the values are those of the keys. When `next` has returned
`false`, there was every descendant, and for a finite tree it does so at last. -/
theorem recursiveiterator_visits {Child : List Segment → Segment → Prop}
    (h : Lists gen s Child) (top : UniConfKey) :
    let Below := Descends fun p => Child (top.path ++ p)
    let it := rewind gen s { top }
    (∀ n, let yields := (iterate gen s n it).1
      (yields.map fun e => e.1.path).Nodup ∧ (∀ e ∈ yields, e.1.path ≠ [] ∧ Below e.1.path ∧
          e.2 = gen.get (top.concat e.1) s) ∧ ParentsFirst (yields.map fun e => e.1.path) ∧
        ((iterate gen s n it).2 = true → ∀ p, p ≠ [] → Below p → ∃ e ∈ yields, e.1.path = p)) ∧
      ({p | p ≠ [] ∧ Below p}.Finite → ∃ n, (iterate gen s n it).2 = true) := by
  obtain ⟨hsteady, hwork⟩ := steady_rewind h.named top
  have hexpands := h.expands top
  have hiterate : ∀ n, iterate gen s n (rewind gen s { top }) =
      ((visit (expand gen s top) n (expand gen s top [])).1.map fun k =>
          (k, gen.get (top.concat k) s), (visit (expand gen s top) n (expand gen s top [])).2) := by
    intro n
    rw [iterate_eq h.named hsteady n, hwork]
    rfl
  constructor
  · intro n
    obtain ⟨work', hvisits, hended⟩ :=
      (Preorder.start hexpands path_nil).visits hexpands n
    rw [nil_append] at hvisits
    have hpaths : ((iterate gen s n (rewind gen s { top })).1.map fun e => e.1.path) =
        (visit (expand gen s top) n (expand gen s top [])).1.map path := by
      rw [hiterate, map_map]
      rfl
    dsimp only
    rw [hpaths]
    refine ⟨hvisits.nodup, ?_, hvisits.parents, ?_⟩
    · intro e he
      rw [hiterate] at he
      obtain ⟨k, hk, rfl⟩ := List.mem_map.mp he
      obtain ⟨hne, hbelow⟩ := hvisits.descends _ (mem_map_of_mem hk)
      exact ⟨hne, hbelow, rfl⟩
    · intro htrue p hne hp
      rw [hiterate] at htrue
      obtain rfl := hended htrue
      have hmem := hvisits.complete hne hp
      rw [← hpaths] at hmem
      exact List.mem_map.mp hmem
  · intro hfinite
    obtain ⟨n, hn⟩ := exists_ended hexpands path_nil hfinite
    exact ⟨n, by rw [hiterate]; exact hn⟩

theorem lists_tempGen (g : UniTempGen) :
    Lists UniTempGen.gen g fun p name => g.content (p ++ [name]) ≠ none := by
  constructor
  · intro key child hchild
    rw [gen_iterator] at hchild
    obtain ⟨c, hc, rfl⟩ := List.mem_map.mp hchild
    exact ne_nil_of_mem_iterator hc
  · intro key name
    rw [gen_iterator, Option.ne_none_iff_exists']
    constructor
    · rintro ⟨v, hv⟩
      obtain ⟨spelling, hname, hmem⟩ := ((g.lists_iterator key).mem name v).mpr hv
      exact ⟨_, mem_map_of_mem hmem, hname⟩
    · rintro ⟨c, hc, rfl⟩
      obtain ⟨c', hc', rfl⟩ := List.mem_map.mp hc
      exact ⟨c'.2, ((g.lists_iterator key).mem _ c'.2).mp ⟨c'.1, rfl, hc'⟩⟩
  · intro key
    rw [gen_iterator, map_map]
    exact pairwise_map.mpr (g.lists_iterator key).distinct

/-- A tree of two levels below `a`: `b` and `b/c` come, each once. -/
theorem recursiveiterator_visits_two :
    let g := (UniTempGen.empty.set [[97], [98], [99]] (some [49])).1
    let yields := (iterate UniTempGen.gen g 5 (rewind UniTempGen.gen g { top := [[97]] })).1
    (yields.map fun e => e.1.path).Nodup ∧ yields = [([[98]], some []), ([[98], [99]], some [49])] :=
  ⟨((recursiveiterator_visits (lists_tempGen _) [[97]]).1 5).1, by decide⟩

section Loops

variable {S : Type} (gen) (look : S → σ) (body : UniConfKey → S → S)

/-- A loop over the keys, of as many rounds as allowed, and whether it came to its end. The body
changes what the iterator reads. -/
def loop : Nat → RecursiveIter → S → S × Bool
  | 0, _, t => (t, false)
  | n + 1, it, t =>
    let (it, more) := it.next gen (look t)
    if more then loop n it (body it.key t) else (t, true)

variable {gen look body} {Child : List Segment → Segment → Prop} {top : UniConfKey}
  {J : List (List Segment) → S → Prop} {it : RecursiveIter} {t : S} {done : List (List Segment)}

theorem loop_eq (n : Nat) (it : RecursiveIter) (t : S) : loop gen look body (n + 1) it t =
    if (it.next gen (look t)).2 then
      loop gen look body n (it.next gen (look t)).1 (body (it.next gen (look t)).1.key t)
    else (t, true) := rfl

theorem loop_succ {n : Nat} (h : (loop gen look body n it t).2 = true) :
    loop gen look body (n + 1) it t = loop gen look body n it t := by
  induction n generalizing it t with
  | zero => contradiction
  | succ n ih =>
    rw [loop_eq n] at h ⊢
    rw [loop_eq (n + 1)]
    by_cases hmore : (it.next gen (look t)).2 = true
    · rw [if_pos hmore] at h
      rw [if_pos hmore, if_pos hmore]
      exact ih h
    · rw [if_neg hmore, if_neg hmore]

/-- While the body does not change which keys there are, the loop has them once each, and behind
their parents. `J` says what was made of those that are done. -/
theorem loop_spec (hlists : ∀ done t, J done t → Named gen (look t) ∧
      Expands Child path (expand gen (look t) top))
    (hbody : ∀ done t (k : UniConfKey), J done t → k.Plain → k.path ≠ [] → Descends Child k.path →
      (k.path.dropLast = [] ∨ k.path.dropLast ∈ done) → k.path ∉ done →
      J (done ++ [k.path]) (body k t)) (hsteady : Steady it) (htop : it.top = top)
    (hpre : Preorder path Child done (work gen (look t) it)) (h : J done t) (n : Nat) :
    ∃ done' work', Preorder path Child done' work' ∧ J done' (loop gen look body n it t).1 ∧
      ((loop gen look body n it t).2 = true → work' = []) ∧
      ((loop gen look body n it t).2 = false → done'.length = done.length + n) := by
  induction n generalizing it t done with
  | zero => exact ⟨done, _, hpre, h, nofun, fun _ => rfl⟩
  | succ n ih =>
    obtain ⟨hnamed, hexpands⟩ := hlists done t h
    rw [loop_eq]
    cases hwork : work gen (look t) it with
    | nil =>
      rw [next_nil hnamed hsteady hwork, if_neg Bool.false_ne_true]
      exact ⟨done, [], hwork ▸ hpre, h, fun _ => rfl, nofun⟩
    | cons k rest =>
      obtain ⟨hmore, hkey, hplain, htop', hsteady', hwork'⟩ := next_cons hnamed hsteady hwork
      rw [hwork] at hpre
      have hk : k ∈ k :: rest := mem_cons_self
      have hfresh : k.path ∉ done := fun hmem => hpre.fresh k hk _ hmem (prefix_refl _)
      obtain ⟨hne, hdescends⟩ := hpre.work_descends k hk
      have hbody' := hbody done t k h hplain hne hdescends (hpre.work_parents k hk) hfresh
      have hstep := hpre.step (hlists _ _ hbody').2
      rw [hmore, if_pos rfl, hkey]
      obtain ⟨done', work', hpre', hJ, hended, hlength⟩ :=
        ih hsteady' (htop'.trans htop) (by rwa [hwork', htop]) hbody'
      refine ⟨done', work', hpre', hJ, hended, fun hfalse => ?_⟩
      rw [hlength hfalse, length_append, length_singleton, Nat.add_assoc, Nat.add_comm 1]

theorem loop_ends (hlists : ∀ done t, J done t → Named gen (look t) ∧
      Expands Child path (expand gen (look t) top))
    (hbody : ∀ done t (k : UniConfKey), J done t → k.Plain → k.path ≠ [] → Descends Child k.path →
      (k.path.dropLast = [] ∨ k.path.dropLast ∈ done) → k.path ∉ done →
      J (done ++ [k.path]) (body k t))
    (hfinite : {p | p ≠ [] ∧ Descends Child p}.Finite) (h : J [] t) :
    ∃ N t' done, (∀ n ≥ N, loop gen look body n (rewind gen (look t) { top }) t = (t', true)) ∧
      J done t' ∧ ∀ p, p ∈ done ↔ p ≠ [] ∧ Descends Child p := by
  obtain ⟨hnamed, hexpands⟩ := hlists [] t h
  obtain ⟨hsteady, hwork⟩ := steady_rewind hnamed top
  have hpre : Preorder path Child [] (work gen (look t) (rewind gen (look t) { top })) :=
    hwork ▸ Preorder.start hexpands path_nil
  have hrun := loop_spec hlists hbody hsteady rfl hpre h
  obtain ⟨done, work', hpre', hJ, hended, hlength⟩ := hrun (hfinite.toFinset.card + 1)
  have hend : (loop gen look body (hfinite.toFinset.card + 1)
      (rewind gen (look t) { top }) t).2 = true := by
    by_contra hnot
    have hle := hpre'.length_le hfinite
    rw [hlength (Bool.eq_false_of_not_eq_true hnot), length_nil, Nat.zero_add] at hle
    exact absurd hle (Nat.not_succ_le_self _)
  obtain rfl := hended hend
  refine ⟨hfinite.toFinset.card + 1, _, done, fun n hn => ?_, hJ, fun p => ?_⟩
  · have hsame : loop gen look body n (rewind gen (look t) { top }) t =
        loop gen look body (hfinite.toFinset.card + 1) (rewind gen (look t) { top }) t := by
      induction n, hn using Nat.le_induction with
      | base => rfl
      | succ n hn ih => rw [loop_succ (ih ▸ hend), ih]
    rw [hsame]
    exact Prod.ext rfl hend
  · exact ⟨hpre'.descends p, fun ⟨hne, hp⟩ => hpre'.complete hne hp⟩

end Loops

end RecursiveIter

end WvStreams
