import WvStreams.Files.DirIter
import WvStreams.Lib.Machine
import WvStreams.Lib.TreeWalk
import WvStreams.UniConf.Wire.Remove

/-!
# The walk of a `WvDirIter`

`Stack` says what the open directories stand for: the entries that are still to be visited. `next`
visits the first of them, whether or not `relpath` is the path of the innermost directory.
-/

namespace WvStreams

open Lib UniConfKey List Folder

namespace WvDirIter

/-- A name in a directory, that none of the names behind it is equal to. -/
structure IsName (name : Str) (behind : List Str) : Prop where
  ne_nil : name ≠ []
  no_slash : slash ∉ name
  fresh : name ∉ behind

/-- The names that are read in the directory `d` stand for the entries of a folder. Every `lstat`
succeeds and every directory can be opened. -/
inductive Shows (fs : FileSystem) : Str → List Str → Folder Str → Prop
  | nil (d : Str) : Shows fs d [] .nil
  | dot {d name : Str} {names : List Str} {l : Folder Str} (hdot : isDot name = true)
      (h : Shows fs d names l) : Shows fs d (name :: names) l
  | leaf {d name : Str} {names : List Str} {l : Folder Str} {stat : Stat}
      (hdot : isDot name = false) (hname : IsName name names)
      (hstat : fs.lstat (d ++ slash :: name) = some stat) (hdir : stat.isDir = false)
      (h : Shows fs d names l) : Shows fs d (name :: names) (.leaf name l)
  | node {d name : Str} {names entries : List Str} {contents l : Folder Str} {stat : Stat}
      (hdot : isDot name = false) (hname : IsName name names)
      (hstat : fs.lstat (d ++ slash :: name) = some stat) (hdir : stat.isDir = true)
      (hopen : fs.opendir (d ++ slash :: name) = some entries)
      (hcontents : Shows fs (d ++ slash :: name) entries contents)
      (h : Shows fs d names l) : Shows fs d (name :: names) (.node name contents l)

variable {names : List Str}

variable {fs : FileSystem}

theorem Shows.names_subset {d : Str} {l : Folder Str} (h : Shows fs d names l) :
    l.names ⊆ names := by
  induction h with
  | nil => exact Subset.refl _
  | dot _ _ ih => exact fun name hname => mem_cons_of_mem _ (ih hname)
  | leaf _ _ _ _ _ ih | node _ _ _ _ _ _ _ _ ih => exact cons_subset_cons _ ih

theorem Shows.distinct {d : Str} {l : Folder Str} (h : Shows fs d names l) : l.Distinct := by
  induction h with
  | nil => trivial
  | dot _ _ ih => exact ih
  | leaf _ hname _ _ h ih => exact ⟨fun hmem => hname.fresh (h.names_subset hmem), ih⟩
  | node _ hname _ _ _ _ h ihc ih =>
    exact ⟨fun hmem => hname.fresh (h.names_subset hmem), ihc, ih⟩

/-- What no call but `up` and `next` themselves change. -/
structure Same (it it' : WvDirIter) : Prop where
  recurse : it'.recurse = it.recurse
  go_up : it'.go_up = it.go_up
  skip_mounts : it'.skip_mounts = it.skip_mounts
  linked : it'.linked = it.linked

theorem Same.trans {a b c : WvDirIter} (h : Same a b) (h' : Same b c) : Same a c :=
  ⟨h'.recurse.trans h.recurse, h'.go_up.trans h.go_up, h'.skip_mounts.trans h.skip_mounts,
    h'.linked.trans h.linked⟩

/-- The first entry of a folder, as it is found in the directory `d`. -/
structure Found (fs : FileSystem) (d : Str) (it it' : WvDirIter) (names left : List Str)
    (l l' : Folder Str) (name : Str) : Prop where
  same : Same it it'
  relpath : it'.relpath = it.relpath
  is_name : IsName name left
  subset : left ⊆ names
  shows_left : Shows fs d left l'
  fullname : it'.info.fullname = d ++ slash :: name
  info_name : it'.info.name = name
  relname : it'.info.relname = if it.relpath = [] then name else it.relpath ++ name
  first : (l = .leaf name l' ∧ it'.info.stat.isDir = false) ∨
    ∃ contents entries, l = .node name contents l' ∧ it'.info.stat.isDir = true ∧
      fs.opendir (d ++ slash :: name) = some entries ∧
      Shows fs (d ++ slash :: name) entries contents

theorem readLoop_dot (fs : FileSystem) (d : Str) (it : WvDirIter) {name : Str}
    (hdot : isDot name = true) (names : List Str) :
    ∃ info, readLoop fs d it (name :: names) = readLoop fs d { it with info := info } names := by
  rw [readLoop]
  simp only [hdot, if_true]
  split
  · exact ⟨_, rfl⟩
  · exact ⟨_, rfl⟩

theorem readLoop_name {d : Str} (it : WvDirIter) {name : Str} {stat : Stat}
    (hdot : isDot name = false) (hstat : fs.lstat (d ++ slash :: name) = some stat)
    (names : List Str) :
    readLoop fs d it (name :: names) =
      ({ it with
          info := { it.entry d name with stat := stat }
          topdir := it.topdir.or (some { it.entry d name with stat := stat }) }, some names) := by
  rw [readLoop]
  simp only [entry, hstat, hdot, Bool.false_eq_true, if_false]

theorem readLoop_spec {d : Str} {l : Folder Str} (h : Shows fs d names l) (it : WvDirIter) :
    (l = .nil ∧ ∃ it', readLoop fs d it names = (it', none) ∧ Same it it' ∧
      it'.relpath = it.relpath) ∨ ∃ it' left l' name, readLoop fs d it names = (it', some left) ∧
      Found fs d it it' names left l l' name := by
  induction h generalizing it with
  | nil => exact .inl ⟨rfl, it, rfl, ⟨rfl, rfl, rfl, rfl⟩, rfl⟩
  | @dot d name names l hdot h ih =>
    obtain ⟨info, hread⟩ := readLoop_dot fs d it hdot names
    rw [hread]
    rcases ih { it with info := info } with ⟨hl, it', hit, hsame, hrel⟩ |
      ⟨it', left, l', first, hit, hfound⟩
    · exact .inl ⟨hl, it', hit, ⟨hsame.1, hsame.2, hsame.3, hsame.4⟩, hrel⟩
    · exact .inr ⟨it', left, l', first, hit, { hfound with
          same := ⟨hfound.same.1, hfound.same.2, hfound.same.3, hfound.same.4⟩
          subset := subset_cons_of_subset _ hfound.subset }⟩
  | @leaf d name names l stat hdot hname hstat hdir h _ =>
    exact .inr ⟨_, names, l, name, readLoop_name it hdot hstat names,
      ⟨⟨rfl, rfl, rfl, rfl⟩, rfl, hname, subset_cons_self _ _, h, rfl, rfl, rfl, .inl ⟨rfl, hdir⟩⟩⟩
  | @node d name names entries contents l stat hdot hname hstat hdir hopen hcontents h _ _ =>
    exact .inr ⟨_, names, l, name, readLoop_name it hdot hstat names,
      ⟨⟨rfl, rfl, rfl, rfl⟩, rfl, hname, subset_cons_self _ _, h, rfl, rfl, rfl,
        .inr ⟨contents, entries, rfl, hdir, hopen, hcontents⟩⟩⟩

def fullPath (top : Str) (path : List Str) : Str := top ++ path.flatMap fun name => slash :: name

theorem fullPath_concat (top : Str) (path : List Str) (name : Str) :
    fullPath top (path ++ [name]) = fullPath top path ++ slash :: name := by
  simp [fullPath]

/-- `relpath` where it is the path of the innermost directory. -/
def pathText (path : List Str) : Str := path.flatMap (· ++ [slash])

/-- The open directories, the innermost first, with its path and the entries that are still to be
visited. The top has the names `all`. -/
inductive Stack (fs : FileSystem) (top : Str) (all : List Str) :
    List Dir → List Str → List (Visit Str) → Prop
  | bottom {left : List Str} {l : Folder Str} (hshows : Shows fs top left l) :
      Stack fs top all [⟨top, all, left⟩] [] (l.preorder [])
  | push {dir : Dir} {rest : List Dir} {path : List Str} {todo : List (Visit Str)}
      (hstack : Stack fs top all (dir :: rest) path todo) {name : Str} (hne : name ≠ [])
      (hslash : slash ∉ name) (hfresh : name ∉ dir.left) {entries left : List Str}
      {l : Folder Str} (hshows : Shows fs (fullPath top (path ++ [name])) left l) :
      Stack fs top all (⟨fullPath top (path ++ [name]), entries, left⟩ :: dir :: rest)
        (path ++ [name]) (l.preorder (path ++ [name]) ++ todo)

section Stack

variable {fs : FileSystem} {top : Str} {all : List Str} {dirs : List Dir} {path : List Str}
  {todo : List (Visit Str)}

theorem Stack.length (h : Stack fs top all dirs path todo) : dirs.length = path.length + 1 := by
  induction h with
  | bottom _ => rfl
  | push _ _ _ _ _ ih => simpa using ih

theorem Stack.sliced (h : Stack fs top all dirs path todo) : UniConfKey.Sliced path := by
  induction h with
  | bottom _ => exact nofun
  | push _ hne hslash _ _ ih =>
    exact forall_mem_append.mpr ⟨ih, forall_mem_singleton.mpr ⟨hne, hslash⟩⟩

theorem Stack.top_only {dir : Dir} (h : Stack fs top all [dir] path todo) :
    path = [] ∧ ∃ l, Shows fs top dir.left l ∧ todo = l.preorder [] := by
  cases h with
  | bottom hshows => exact ⟨rfl, _, hshows, rfl⟩

theorem Stack.getLast (h : Stack fs top all dirs path todo) :
    ∃ left, dirs.getLast? = some ⟨top, all, left⟩ := by
  induction h with
  | bottom _ => exact ⟨_, rfl⟩
  | push _ _ _ _ _ ih => simpa using ih

theorem Stack.apart {dir : Dir} {rest : List Dir}
    (h : Stack fs top all (dir :: rest) path todo) {name : Str} (hname : name ∉ dir.left) :
    ∀ v ∈ todo, ¬ path ++ [name] <+: v.path := by
  generalize hdirs : dir :: rest = dirs at h
  induction h generalizing dir rest name with
  | bottom hshows =>
    obtain ⟨rfl, rfl⟩ := cons.inj hdirs
    intro v hv hprefix
    obtain ⟨other, hmem, hother⟩ := mem_preorder hv
    obtain rfl := name_eq_of_prefix hother hprefix
    exact hname (hshows.names_subset hmem)
  | push _ _ _ hfresh hshows ih =>
    obtain ⟨rfl, rfl⟩ := cons.inj hdirs
    intro v hv hprefix
    rcases mem_append.mp hv with hv | hv
    · obtain ⟨other, hmem, hother⟩ := mem_preorder hv
      obtain rfl := name_eq_of_prefix hother hprefix
      exact hname (hshows.names_subset hmem)
    · exact ih hfresh rfl v hv ((prefix_append _ _).trans hprefix)

theorem Stack.pop {dir dir' : Dir} {rest : List Dir}
    (h : Stack fs top all (dir :: dir' :: rest) path todo) :
    ∃ path' name, path = path' ++ [name] ∧
      Stack fs top all (dir' :: rest) path' (todo.filter fun v => ¬ Walk.Below path v) := by
  cases h with
  | @push _ _ path' outer hstack name _ _ hfresh _ _ l hshows =>
    refine ⟨path', name, rfl, ?_⟩
    have hinner : (l.preorder (path' ++ [name])).filter
        (fun v => ¬ Walk.Below (path' ++ [name]) v) = [] := by
      rw [filter_eq_nil_iff]
      intro v hv
      obtain ⟨other, -, hother⟩ := mem_preorder hv
      have hlen := hother.length_le
      have hbelow : Walk.Below (path' ++ [name]) v := by
        refine ⟨(prefix_append _ _).trans hother, ?_⟩
        simp only [length_append, length_singleton] at hlen ⊢
        omega
      simpa using hbelow
    have houter : outer.filter (fun v => ¬ Walk.Below (path' ++ [name]) v) = outer := by
      rw [filter_eq_self]
      intro v hv
      have hapart := hstack.apart hfresh v hv
      simpa using fun hbelow : Walk.Below _ v => hapart hbelow.1
    rw [filter_append, hinner, houter]
    exact hstack

end Stack

theorem pathText_concat (path : List Str) (name : Str) :
    pathText (path ++ [name]) = pathText path ++ name ++ [slash] := by
  simp [pathText]

variable {path : List Str}

theorem pathText_eq (hne : path ≠ []) : pathText path = printable path ++ [slash] := by
  induction path with
  | nil => exact absurd rfl hne
  | cons name path ih =>
    cases path with
    | nil => simp [pathText, printable]
    | cons next path =>
      have htail := ih (cons_ne_nil next path)
      simp only [pathText, printable, flatMap_cons] at htail ⊢
      rw [htail]
      simp

theorem fullPath_eq (top : Str) (hne : path ≠ []) :
    fullPath top path = top ++ slash :: printable path := by
  rw [fullPath, append_cancel_left_eq]
  induction path with
  | nil => exact absurd rfl hne
  | cons name path ih =>
    cases path with
    | nil => simp [printable]
    | cons next path =>
      rw [flatMap_cons, ih (cons_ne_nil next path)]
      simp [printable]

theorem relpathUp_concat {name : Str} (h : UniConfKey.Sliced (path ++ [name])) :
    relpathUp (pathText (path ++ [name])) (path.length + 2) = pathText path := by
  unfold relpathUp
  by_cases hpath : path = []
  · rw [hpath]
    rfl
  · have hlen : path.length + 2 ≠ 2 := by
      have := length_pos_iff.mpr hpath
      omega
    have hne : path ++ [name] ≠ [] := by simp
    have hdir : getdirname (printable (path ++ [name]) ++ [slash]) =
        getdirname (printable (path ++ [name])) := by
      rw [getdirname]
      simp
    rw [if_neg hlen, pathText_eq hne, hdir, getdirname_concat h, if_neg hpath, pathText_eq hpath]

/-- `relpath` is the path of the innermost directory. -/
def InStep (it : WvDirIter) (path : List Str) : Prop := it.relpath = pathText path

/-- The name and the path of an entry, and whether it is a directory. -/
structure Named (top : Str) (v : Visit Str) (info : WvDirEnt) : Prop where
  name : v.path.getLast? = some info.name
  fullname : info.fullname = top ++ slash :: printable v.path
  isDir : info.stat.isDir = v.isNode

/-- `next` comes to the first entry that is to be visited, or says that there is none. -/
def Comes (fs : FileSystem) (top : Str) (all : List Str) (it : WvDirIter) (path : List Str) :
    List (Visit Str) → WvDirIter × Bool → Prop
  | [], r => r.2 = false ∧ Stack fs top all r.1.dirs [] [] ∧ Same it r.1 ∧
      (InStep it path → InStep r.1 [])
  | v :: todo, r => r.2 = true ∧ Named top v r.1.info ∧ Stack fs top all r.1.dirs v.inside todo ∧
      Same it r.1 ∧ (InStep it path → r.1.info.relname = printable v.path ∧ InStep r.1 v.inside)

section Next

variable {fs : FileSystem} {top : Str} {all : List Str}

variable {path : List Str}

theorem relname_eq {it : WvDirIter} (hstep : InStep it path) (name : Str) :
    (if it.relpath = [] then name else it.relpath ++ name) = printable (path ++ [name]) := by
  rw [hstep]
  by_cases hpath : path = []
  · rw [hpath]
    simp [pathText, printable]
  · have hne : pathText path ≠ [] := by
      rw [pathText_eq hpath]
      simp
    rw [if_neg hne, pathText_eq hpath, printable_concat hpath]
    simp

theorem Comes.back {it it₁ : WvDirIter} {path path₁ : List Str} {todo : List (Visit Str)}
    {r : WvDirIter × Bool} (h : Comes fs top all it₁ path₁ todo r) (hsame : Same it it₁)
    (hstep : InStep it path → InStep it₁ path₁) : Comes fs top all it path todo r := by
  cases todo with
  | nil =>
    obtain ⟨hend, hstack, hkept, hrel⟩ := h
    exact ⟨hend, hstack, hsame.trans hkept, hrel ∘ hstep⟩
  | cons v todo =>
    obtain ⟨hok, hnamed, hstack, hkept, hrel⟩ := h
    exact ⟨hok, hnamed, hstack, hsame.trans hkept, hrel ∘ hstep⟩

theorem comes_found {it it' : WvDirIter} (dir : Dir) {rest : List Dir}
    {left : List Str} {l l' : Folder Str} {name : Str} {outer : List (Visit Str)}
    (hplain : it.recurse = true ∧ it.skip_mounts = false)
    (hdirname : dir.dirname = fullPath top path)
    (hfound : Found fs dir.dirname it it' dir.left left l l' name)
    (hstack : Stack fs top all ({ dir with left := left } :: rest) path
      (l'.preorder path ++ outer)) :
    Comes fs top all it path (l.preorder path ++ outer)
      (descend fs { it' with dirs := { dir with left := left } :: rest }, true) := by
  have hfull : it'.info.fullname = fullPath top (path ++ [name]) := by
    rw [hfound.fullname, hdirname, fullPath_concat]
  have hnamed : ∀ b, it'.info.stat.isDir = b → Named top ⟨path ++ [name], b⟩ it'.info := by
    intro b hb
    refine ⟨?_, ?_, hb⟩
    · rw [hfound.info_name]
      simp
    · rw [hfull, fullPath_eq top (by simp)]
  have hrel : InStep it path → it'.info.relname = printable (path ++ [name]) := by
    intro hstep
    rw [hfound.relname, relname_eq hstep name]
  obtain ⟨hrecurse, hmounts⟩ := hplain
  obtain ⟨hsame₁, hsame₂, hsame₃, hsame₄⟩ := hfound.same
  rcases hfound.first with ⟨rfl, hfile⟩ | ⟨contents, entries, rfl, hdir, hopen, hcontents⟩
  · have hinside : Visit.inside ⟨path ++ [name], false⟩ = path := by simp [Visit.inside]
    have hstays : descend fs { it' with dirs := { dir with left := left } :: rest } =
        { it' with dirs := { dir with left := left } :: rest } := by
      simp [descend, wantsIn, hfile]
    rw [hstays]
    refine ⟨rfl, hnamed false hfile, ?_, ⟨hsame₁, hsame₂, hsame₃, hsame₄⟩, ?_⟩
    · rw [hinside]
      exact hstack
    · intro hstep
      rw [hinside]
      exact ⟨hrel hstep, hfound.relpath.trans hstep⟩
  · have hinside : Visit.inside ⟨path ++ [name], true⟩ = path ++ [name] := rfl
    have hopens : descend fs { it' with dirs := { dir with left := left } :: rest } =
        { it' with
          relpath := it'.relpath ++ name ++ [slash]
          dirs := ⟨fullPath top (path ++ [name]), entries, entries⟩ ::
            { dir with left := left } :: rest } := by
      rw [hdirname, ← fullPath_concat] at hopen
      simp [descend, wantsIn, hdir, hsame₁, hsame₃, hrecurse, hmounts, hfull, hopen,
        hfound.info_name]
    have hsplit : (node name contents l').preorder path ++ outer =
        ⟨path ++ [name], true⟩ :: (contents.preorder (path ++ [name]) ++
          (l'.preorder path ++ outer)) := by
      simp [preorder]
    rw [hopens, hsplit]
    refine ⟨rfl, hnamed true hdir, ?_, ⟨hsame₁, hsame₂, hsame₃, hsame₄⟩, ?_⟩
    · rw [hinside]
      refine Stack.push hstack hfound.is_name.ne_nil hfound.is_name.no_slash
        hfound.is_name.fresh ?_
      rw [fullPath_concat, ← hdirname]
      exact hcontents
    · intro hstep
      rw [hinside, InStep, pathText_concat, hfound.relpath, hstep]
      exact ⟨hrel hstep, rfl⟩

theorem nextLoop_comes {dirs : List Dir} {todo : List (Visit Str)}
    (h : Stack fs top all dirs path todo) (it : WvDirIter)
    (hplain : it.recurse = true ∧ it.skip_mounts = false) :
    Comes fs top all it path todo (nextLoop fs it dirs) := by
  induction h generalizing it with
  | @bottom left l hshows =>
    rw [nextLoop]
    rcases readLoop_spec hshows it with ⟨rfl, it', hread, hsame, hrel⟩ |
      ⟨it', left', l', name, hread, hfound⟩
    · simp only [hread, if_true]
      exact ⟨rfl, .bottom (.nil top), ⟨hsame.1, hsame.2, hsame.3, hsame.4⟩, hrel.trans⟩
    · simp only [hread]
      rw [← append_nil (l.preorder [])]
      apply comes_found ⟨top, all, left⟩ hplain (by simp [fullPath]) hfound
      rw [append_nil]
      exact .bottom hfound.shows_left
  | @push dir rest path todo hstack name hne hslash hfresh entries left l hshows ih =>
    have hpushed : Stack fs top all
        (⟨fullPath top (path ++ [name]), entries, left⟩ :: dir :: rest) (path ++ [name])
        (l.preorder (path ++ [name]) ++ todo) := .push hstack hne hslash hfresh hshows
    rw [nextLoop]
    rcases readLoop_spec hshows it with ⟨rfl, it', hread, hsame, hrel⟩ |
      ⟨it', left', l', name', hread, hfound⟩
    · simp only [hread, cons_ne_nil, if_false]
      -- nothing is left in the directory, and the walk goes on in the one above it
      have hcame := ih { it' with relpath := relpathUp it'.relpath ((dir :: rest).length + 1) }
        ⟨hsame.1.trans hplain.1, hsame.3.trans hplain.2⟩
      apply hcame.back ⟨hsame.1, hsame.2, hsame.3, hsame.4⟩
      intro hstep
      rw [InStep, hrel, hstep, hstack.length]
      exact relpathUp_concat hpushed.sliced
    · simp only [hread]
      exact comes_found ⟨_, entries, left⟩ hplain rfl hfound
        (.push hstack hne hslash hfresh hfound.shows_left)

end Next

end WvDirIter

end WvStreams
