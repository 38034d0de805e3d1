import WvStreams.UniConf.Wire.Daemon

/-!
# `WvDirIter`

The iterator keeps a stack of open directories, each with its path, and beside it `relpath`, the
path of the innermost one below the top. `next` goes into a directory that it has found and comes
back from one that is read to its end, and takes `relpath` along. `next` after `up` and `rewind`
leave directories without it.
-/

namespace WvStreams

open UniConfKey (slash)

/-- What `lstat` tells of a file. -/
structure Stat where
  isDir : Bool
  st_dev : Nat

/-- The directories and files by their path. A name with a slash behind it means the same
directory, and the empty name none. -/
structure FileSystem where
  opendir : Str → Option (List Str)
  lstat : Str → Option Stat
  opendir_nil : opendir [] = none
  opendir_slash : ∀ p, p ≠ [] → p.getLast? ≠ some slash → opendir (p ++ [slash]) = opendir p

structure WvDirEnt where
  fullname : Str
  name : Str
  relname : Str
  stat : Stat

/-- A `DIR` with all names it reads and those that are left, and its path. -/
structure Dir where
  dirname : Str
  entries : List Str
  left : List Str

/-- `topdir` is none while `found_top` is false, and the innermost directory of `dirs` is the
first. `dir` is at that one, unless its link is still null, as the constructor leaves it. -/
structure WvDirIter where
  recurse : Bool
  go_up : Bool
  skip_mounts : Bool
  topdir : Option WvDirEnt
  info : WvDirEnt
  relpath : Str
  dirs : List Dir
  linked : Bool

def isDot (d_name : Str) : Bool := d_name == bytes "." || d_name == bytes ".."

namespace WvDirIter

def stripSlash (dirname : Str) : Str :=
  if dirname.getLast? = some slash then dirname.dropLast else dirname

def make (fs : FileSystem) (dirname : Str) (recurse : Bool := true) (skip_mounts : Bool := false) :
    WvDirIter where
  recurse := recurse
  go_up := false
  skip_mounts := skip_mounts
  topdir := none
  info := ⟨[], [], [], ⟨false, 0⟩⟩
  relpath := []
  dirs := ((fs.opendir (stripSlash dirname)).map fun entries =>
    ⟨stripSlash dirname, entries, entries⟩).toList
  linked := false

def entry (it : WvDirIter) (dirname d_name : Str) : WvDirEnt :=
  { it.info with
    fullname := dirname ++ slash :: d_name
    name := d_name
    relname := if it.relpath = [] then d_name else it.relpath ++ d_name }

/-- The inner loop of `next` on the names that are left: the names behind the one it stops at, or
none at the end of the directory. -/
def readLoop (fs : FileSystem) (dirname : Str) (it : WvDirIter) :
    List Str → WvDirIter × Option (List Str)
  | [] => (it, none)
  | d_name :: left =>
    let info := it.entry dirname d_name
    match fs.lstat info.fullname with
    | none => readLoop fs dirname { it with info := info } left
    | some stat =>
      let info := { info with stat := stat }
      if isDot d_name then readLoop fs dirname { it with info := info } left
      else ({ it with info := info, topdir := it.topdir.or (some info) }, some left)

/-- The condition for going into what was found. -/
def wantsIn (it : WvDirIter) : Bool :=
  it.recurse && it.info.stat.isDir &&
    (!it.skip_mounts || it.topdir.map (·.stat.st_dev) == some it.info.stat.st_dev)

def descend (fs : FileSystem) (it : WvDirIter) : WvDirIter :=
  if it.wantsIn then
    match fs.opendir it.info.fullname with
    | some entries =>
      { it with
        relpath := it.relpath ++ it.info.name ++ [slash]
        dirs := ⟨it.info.fullname, entries, entries⟩ :: it.dirs }
    | none => it
  else it

/-- `relpath` at the end of a directory, when `count` are open. -/
def relpathUp (relpath : Str) (count : Nat) : Str :=
  if count = 2 then [] else getdirname relpath ++ [slash]

/-- The outer loop of `next`, over the open directories. -/
def nextLoop (fs : FileSystem) (it : WvDirIter) : List Dir → WvDirIter × Bool
  | [] => (it, false)
  | dir :: rest =>
    match readLoop fs dir.dirname it dir.left with
    | (it, some left) => (descend fs { it with dirs := { dir with left := left } :: rest }, true)
    | (it, none) =>
      if rest = [] then ({ it with dirs := [{ dir with left := [] }] }, false)
      else nextLoop fs { it with relpath := relpathUp it.relpath (rest.length + 1) } rest

/-- None if a null link is followed. -/
def next (fs : FileSystem) (it : WvDirIter) : Option (WvDirIter × Bool) :=
  if it.dirs = [] then some (it, false)
  else if it.go_up && it.dirs.length = 1 then some ({ it with go_up := false }, false)
  else if !it.linked then none
  else if it.go_up then some (nextLoop fs { it with go_up := false } it.dirs.tail)
  else some (nextLoop fs it it.dirs)

def up (it : WvDirIter) : WvDirIter := { it with go_up := true }

/-- All but the last directory are closed, and that one begins anew. -/
def rewind (it : WvDirIter) : WvDirIter :=
  { it with
    dirs := it.dirs.getLast?.toList.map fun dir => { dir with left := dir.entries }
    linked := it.linked || !it.dirs.isEmpty }

inductive Call where
  | next
  | up
  | rewind
  deriving DecidableEq

def call (fs : FileSystem) (it : WvDirIter) : Call → Option (WvDirIter × Option WvDirEnt)
  | .next => (it.next fs).map fun (it, ok) => (it, if ok then some it.info else none)
  | .up => some (it.up, none)
  | .rewind => some (it.rewind, none)

end WvDirIter

end WvStreams
