import WvStreams.Files.DirWalk

/-!
# Calls of a `WvDirIter`

Beside the iterator runs the walk that it is to make. The entries, their names and their full
names are those of the walk in every run in which `rewind` comes before the first `next` and the
top directory itself is not abandoned (`Watched.right_of_along`). The relative names are right
too as long as no directory is left by `up` or `rewind`, which do not change `relpath`.
-/

namespace WvStreams

open Lib UniConfKey List

namespace WvDirIter

structure Watched where
  it : WvDirIter
  walk : Walk Str

namespace Watched

def walkCall (tree : Folder Str) (w : Walk Str) : Call → Walk Str × Option (Visit Str)
  | .next => w.next
  | .up => (w.up, none)
  | .rewind => (Walk.start tree, none)

def start (fs : FileSystem) (dirname : Str) (tree : Folder Str) : Watched :=
  ⟨make fs dirname, Walk.start tree⟩

def machine (fs : FileSystem) (tree : Folder Str) :
    Machine Watched Call (Option WvDirEnt × Option (Visit Str)) where
  step s c :=
    (s.it.call fs c).map fun r =>
      (⟨r.1, (walkCall tree s.walk c).1⟩, r.2, (walkCall tree s.walk c).2)

/-- The entry is that of the walk, and every entry of the tree was visited, once and behind the
directories that it is in, was abandoned or is still to be visited. -/
structure RightEntry (top : Str) (tree : Folder Str) (s : Watched)
    (o : Option WvDirEnt × Option (Visit Str)) : Prop where
  entry : Option.Rel (Named top) o.2 o.1
  accounts : Walk.Accounts tree s.walk
  once : s.walk.seen.Pairwise fun a b => ¬ b.path <+: a.path

/-- The relative name is the path of the entry. -/
def RightName (o : Option WvDirEnt × Option (Visit Str)) : Prop :=
  ∀ info ∈ o.1, ∀ v ∈ o.2, info.relname = printable v.path

/-- `up` is not directly followed by `rewind`. -/
def Allowed (s : Watched) (c : Call) : Prop := c = .rewind → s.it.go_up = false

/-- `next` does not look for a name before the first `rewind`. -/
def Rewound (s : Watched) (c : Call) : Prop := c = .next → s.it.go_up = false → s.it.linked = true

/-- The top directory is not abandoned before its end. -/
def KeepsTop (s : Watched) (c : Call) : Prop :=
  c = .next → s.it.go_up = true → s.it.dirs.length = 1 →
    ∀ dir ∈ s.it.dirs, ∀ name ∈ dir.left, isDot name = true

/-- No directory below the top is left by `up` or `rewind`. -/
def KeepsPath (s : Watched) (c : Call) : Prop :=
  (c = .next → s.it.go_up = true → s.it.dirs.length = 1) ∧ (c = .rewind → s.it.dirs.length = 1)

instance (s : Watched) (c : Call) : Decidable (Allowed s c) := inferInstanceAs (Decidable (_ → _))

instance (s : Watched) (c : Call) : Decidable (Rewound s c) :=
  inferInstanceAs (Decidable (_ → _ → _))

instance (s : Watched) (c : Call) : Decidable (KeepsTop s c) :=
  inferInstanceAs (Decidable (_ → _ → _ → _))

instance (s : Watched) (c : Call) : Decidable (KeepsPath s c) :=
  inferInstanceAs (Decidable (_ ∧ _))

/-- What holds between calls; `strict` stands for what is asked for the relative names. -/
structure Inv (fs : FileSystem) (top : Str) (all : List Str) (tree : Folder Str) (strict : Prop)
    (s : Watched) : Prop where
  plain : s.it.recurse = true ∧ s.it.skip_mounts = false
  linked : 1 < s.it.dirs.length → s.it.linked = true
  accounts : Walk.Accounts tree s.walk
  stack : ∃ todo, Stack fs top all s.it.dirs s.walk.inside todo ∧ s.walk.todo =
      if s.it.go_up then todo.filter fun v => ¬ Walk.Below s.walk.inside v else todo
  in_step : strict → InStep s.it s.walk.inside

section Steps

variable {fs : FileSystem} {top : Str} {all : List Str} {tree : Folder Str} {strict : Prop}
  {s : Watched}

theorem Inv.of_comes (h : Inv fs top all tree strict s) (hshows : Shows fs top all tree)
    {it : WvDirIter} {path : List Str} {r : WvDirIter × Bool}
    (hplain : it.recurse = true ∧ it.skip_mounts = false)
    (hlinked : 1 < r.1.dirs.length → it.linked = true) (hgo : it.go_up = false)
    (hcomes : Comes fs top all it path s.walk.todo r) (hstep : strict → InStep it path) :
    Inv fs top all tree strict ⟨r.1, s.walk.next.1⟩ ∧ RightEntry top tree ⟨r.1, s.walk.next.1⟩
        (if r.2 then some r.1.info else none, s.walk.next.2) ∧
      (strict → RightName (if r.2 then some r.1.info else none, s.walk.next.2)) := by
  have haccounts := h.accounts.next
  have honce := haccounts.seen_pairwise hshows.distinct
  cases htodo : s.walk.todo with
  | nil =>
    rw [htodo] at hcomes
    obtain ⟨hend, hstack, hsame, hrel⟩ := hcomes
    rw [Walk.next_nil htodo] at haccounts honce ⊢
    refine ⟨⟨?_, ?_, haccounts, ⟨[], hstack, ?_⟩, hrel ∘ hstep⟩, ⟨?_, haccounts, honce⟩, ?_⟩
    · exact ⟨hsame.1.trans hplain.1, hsame.3.trans hplain.2⟩
    · exact fun hlen => hsame.4.trans (hlinked hlen)
    · rw [hsame.2, hgo, htodo]
      rfl
    · rw [hend]
      exact .none
    · nofun
  | cons v todo =>
    rw [htodo] at hcomes
    obtain ⟨hok, hnamed, hstack, hsame, hrel⟩ := hcomes
    rw [Walk.next_cons htodo] at haccounts honce ⊢
    refine ⟨⟨?_, ?_, haccounts, ⟨todo, hstack, ?_⟩, fun hs => (hrel (hstep hs)).2⟩,
      ⟨?_, haccounts, honce⟩, ?_⟩
    · exact ⟨hsame.1.trans hplain.1, hsame.3.trans hplain.2⟩
    · exact fun hlen => hsame.4.trans (hlinked hlen)
    · rw [hsame.2, hgo]
      rfl
    · rw [hok]
      exact .some hnamed
    · intro hs info hinfo u hu
      rw [hok] at hinfo
      cases hinfo
      cases hu
      exact (hrel (hstep hs)).1

theorem eq_nil_of_dots {d : Str} {names : List Str} {l : Folder Str} (h : Shows fs d names l)
    (hdots : ∀ name ∈ names, isDot name = true) : l = .nil := by
  induction h with
  | nil => rfl
  | dot _ _ ih => exact ih fun name hname => hdots name (mem_cons_of_mem _ hname)
  | leaf hdot _ _ _ _ _ | node hdot _ _ _ _ _ _ _ _ =>
    exact absurd (hdots _ mem_cons_self) (by simp [hdot])

theorem Inv.next (h : Inv fs top all tree strict s) (hshows : Shows fs top all tree)
    (hrewound : Rewound s .next) (htop : KeepsTop s .next) (hpath : strict → KeepsPath s .next) :
    ∃ r, s.it.call fs .next = some r ∧ Inv fs top all tree strict ⟨r.1, s.walk.next.1⟩ ∧
      RightEntry top tree ⟨r.1, s.walk.next.1⟩ (r.2, s.walk.next.2) ∧
      (strict → RightName (r.2, s.walk.next.2)) := by
  obtain ⟨todo, hstack, htodo⟩ := h.stack
  have hdirs : s.it.dirs ≠ [] := by
    have := hstack.length
    rintro hnil
    rw [hnil] at this
    cases this
  cases hgo : s.it.go_up with
  | false =>
    rw [hgo, if_neg Bool.false_ne_true] at htodo
    have hcomes := nextLoop_comes hstack s.it h.plain
    rw [← htodo] at hcomes
    have hlinked := hrewound rfl hgo
    have hcall : s.it.call fs .next = some ((nextLoop fs s.it s.it.dirs).1,
        if (nextLoop fs s.it s.it.dirs).2 then some (nextLoop fs s.it s.it.dirs).1.info
        else none) := by
      simp [call, WvDirIter.next, hdirs, hgo, hlinked]
    exact ⟨_, hcall, h.of_comes hshows h.plain (fun _ => hlinked) hgo hcomes h.in_step⟩
  | true =>
    rw [hgo, if_pos rfl] at htodo
    rcases hlist : s.it.dirs with _ | ⟨dir, _ | ⟨dir', rest⟩⟩
    · exact absurd hlist hdirs
    · -- only the top is open, and it has nothing left
      have hdots := htop rfl hgo (by rw [hlist]; rfl) dir (by rw [hlist]; exact mem_cons_self)
      rw [hlist] at hstack
      obtain ⟨hinside, l, hl, hpreorder⟩ := hstack.top_only
      obtain rfl := eq_nil_of_dots hl hdots
      have hnil : todo = [] := hpreorder
      have hcall : s.it.call fs .next = some ({ s.it with go_up := false }, none) := by
        simp [call, WvDirIter.next, hlist, hgo]
      have hcomes : Comes fs top all { s.it with go_up := false } s.walk.inside s.walk.todo
          ({ s.it with go_up := false }, false) := by
        rw [hinside, hnil] at hstack
        rw [htodo, hnil, hinside]
        refine ⟨rfl, ?_, ⟨rfl, rfl, rfl, rfl⟩, id⟩
        rwa [hlist]
      refine ⟨_, hcall, ?_⟩
      apply h.of_comes hshows _ _ rfl hcomes h.in_step
      · exact h.plain
      · exact h.linked
    · -- the innermost directory is closed, and the walk goes on in the one above it
      rw [hlist] at hstack
      obtain ⟨path, name, hinside, hpop⟩ := hstack.pop
      have hcomes := nextLoop_comes hpop { s.it with go_up := false } h.plain
      rw [← htodo] at hcomes
      have hlinked := h.linked (by rw [hlist]; simp)
      have hcall : s.it.call fs .next =
          some ((nextLoop fs { s.it with go_up := false } (dir' :: rest)).1,
            if (nextLoop fs { s.it with go_up := false } (dir' :: rest)).2 then
              some (nextLoop fs { s.it with go_up := false } (dir' :: rest)).1.info
            else none) := by
        simp [call, WvDirIter.next, hlist, hgo, hlinked]
      refine ⟨_, hcall, ?_⟩
      apply h.of_comes hshows _ _ rfl hcomes
      · intro hs
        have hone := (hpath hs).1 rfl hgo
        rw [hlist] at hone
        cases hone
      · exact h.plain
      · exact fun _ => hlinked

theorem Inv.up (h : Inv fs top all tree strict s) :
    Inv fs top all tree strict ⟨s.it.up, s.walk.up⟩ := by
  obtain ⟨todo, hstack, htodo⟩ := h.stack
  refine ⟨h.plain, h.linked, h.accounts.up, ⟨todo, hstack, ?_⟩, h.in_step⟩
  simp only [Walk.up, WvDirIter.up, if_true, htodo]
  split
  · simp only [filter_filter, Bool.and_self]
  · rfl

theorem Inv.rewind (h : Inv fs top all tree strict s) (hshows : Shows fs top all tree)
    (hallowed : Allowed s .rewind) (hpath : strict → KeepsPath s .rewind) :
    Inv fs top all tree strict ⟨s.it.rewind, Walk.start tree⟩ := by
  obtain ⟨todo, hstack, htodo⟩ := h.stack
  obtain ⟨left, hlast⟩ := hstack.getLast
  have hdirs : s.it.rewind.dirs = [⟨top, all, all⟩] := by
    simp [WvDirIter.rewind, hlast]
  refine ⟨h.plain, ?_, Walk.accounts_start tree, ⟨tree.preorder [], ?_, ?_⟩, ?_⟩
  · intro hlen
    rw [hdirs] at hlen
    exact absurd hlen (by simp)
  · rw [hdirs]
    exact .bottom hshows
  · have hgo : s.it.rewind.go_up = false := hallowed rfl
    rw [hgo]
    rfl
  · intro hs
    have hone := (hpath hs).2 rfl
    have hnil : s.walk.inside = [] := by
      have hlen := hstack.length
      apply length_eq_zero_iff.mp
      omega
    have hstep := h.in_step hs
    rw [hnil] at hstep
    exact hstep

theorem Inv.step (h : Inv fs top all tree strict s) (hshows : Shows fs top all tree) (c : Call)
    (hallowed : Allowed s c) (hrewound : Rewound s c) (htop : KeepsTop s c)
    (hpath : strict → KeepsPath s c) :
    ∃ s' o, (machine fs tree).step s c = some (s', o) ∧
      (RightEntry top tree s' o ∧ (strict → RightName o)) ∧ Inv fs top all tree strict s' := by
  cases c with
  | next =>
    obtain ⟨r, hcall, hinv, hright, hname⟩ := h.next hshows hrewound htop hpath
    refine ⟨_, _, ?_, ⟨hright, hname⟩, hinv⟩
    simp only [machine, hcall, Option.map_some]
    rfl
  | up =>
    have hinv := h.up
    exact ⟨_, _, rfl, ⟨⟨.none, hinv.accounts, hinv.accounts.seen_pairwise hshows.distinct⟩,
      nofun⟩, hinv⟩
  | rewind =>
    have hinv := h.rewind hshows hallowed hpath
    exact ⟨_, _, rfl, ⟨⟨.none, hinv.accounts, hinv.accounts.seen_pairwise hshows.distinct⟩,
      nofun⟩, hinv⟩

end Steps

theorem inv_start {fs : FileSystem} {top dirname : Str} {names : List Str} {tree : Folder Str}
    (hne : top ≠ []) (hslash : top.getLast? ≠ some slash)
    (hdirname : dirname = top ∨ dirname = top ++ [slash])
    (hopen : fs.opendir dirname = some names) (hshows : Shows fs top names tree) (strict : Prop) :
    Inv fs top names tree strict (start fs dirname tree) := by
  have hstrip : stripSlash dirname = top ∧ fs.opendir top = some names := by
    rcases hdirname with rfl | rfl
    · exact ⟨by rw [stripSlash, if_neg hslash], hopen⟩
    · rw [fs.opendir_slash top hne hslash] at hopen
      exact ⟨by simp [stripSlash], hopen⟩
  have hdirs : (make fs dirname).dirs = [⟨top, names, names⟩] := by
    simp [make, hstrip.1, hstrip.2]
  refine ⟨⟨rfl, rfl⟩, ?_, Walk.accounts_start tree, ⟨tree.preorder [], ?_, rfl⟩, fun _ => rfl⟩
  · rw [start, hdirs]
    exact fun hlen => absurd hlen (by simp)
  · rw [start, hdirs]
    exact .bottom hshows

def table (p : Str) : Option (List Str) :=
  if p = bytes "t" then some [bytes ".", bytes "..", bytes "a", bytes "b"]
  else if p = bytes "t/a" then some [bytes ".", bytes "..", bytes "x"]
  else none

end Watched

end WvDirIter

end WvStreams
