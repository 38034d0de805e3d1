import WvStreams.UniConf.SubKey
import WvStreams.UniConf.HashTree

/-!
# The watches of a `UniConfRoot`

The watches are kept in a tree, each at the key that it was registered for. `delivered` says
which watches an announcement reaches: those that are concerned by it, and where the key has a
trailing slash the recursive watches at the key a second time, because the empty last segment
leads to the same node again.
-/

namespace WvStreams

open Lib UniConfKey UniConfTree List

structure UniWatchInfo (Cookie Cb : Type) where
  cookie : Cookie
  recurse : Bool
  cb : Cb
  deriving DecidableEq

/-- The node's `watches` are its `val`. -/
abbrev UniWatchInfoTree (Cookie Cb : Type) := UniConfTree (List (UniWatchInfo Cookie Cb))

namespace UniWatchInfoTree

variable {Cookie Cb : Type}

def empty : UniWatchInfoTree Cookie Cb := ⟨[], .nil⟩

def haschildren (t : UniWatchInfoTree Cookie Cb) : Bool := !t.kids.toList.isEmpty

def isessential (t : UniWatchInfoTree Cookie Cb) : Bool := haschildren t || !t.val.isEmpty

def watches (t : UniWatchInfoTree Cookie Cb) (p : List Segment) : List (UniWatchInfo Cookie Cb) :=
  (t.content p).getD []

/-- Change the watches at a key, whose missing nodes are created. -/
def change (f : List (UniWatchInfo Cookie Cb) → List (UniWatchInfo Cookie Cb)) :
    UniWatchInfoTree Cookie Cb → UniConfKey → UniWatchInfoTree Cookie Cb
  | t, [] => ⟨f t.val, t.kids⟩
  | t, s :: key =>
    -- `findchild` of an empty segment is the node itself
    if s = [] then change f t key
    else ⟨t.val, t.kids.insert s (change f ((t.kids.lookup (fold s)).getD empty) key)⟩

/-- Delete the node at a key and the nodes above it as long as they are not essential. -/
def prune : UniWatchInfoTree Cookie Cb → UniConfKey → UniWatchInfoTree Cookie Cb
  | t, [] => t
  | t, s :: key =>
    if s = [] then prune t key
    else
      match t.kids.lookup (fold s) with
      | none => t
      | some node =>
        let node := prune node key
        if isessential node then ⟨t.val, t.kids.insert s node⟩
        else ⟨t.val, t.kids.erase (fold s)⟩

/-- The watches below a node, each with its path. -/
def below : Forest Segment (List (UniWatchInfo Cookie Cb)) →
    List (List Segment × UniWatchInfo Cookie Cb)
  | .nil => []
  | .cons key ws sub rest =>
    (ws.map (Prod.mk []) ++ below sub).map (Prod.map (cons (fold key)) id) ++ below rest

def all (t : UniWatchInfoTree Cookie Cb) : List (List Segment × UniWatchInfo Cookie Cb) :=
  t.val.map (Prod.mk []) ++ below t.kids

/-! ## The watches at a path -/

@[simp] theorem watches_nil (t : UniWatchInfoTree Cookie Cb) : watches t [] = t.val := rfl

@[simp] theorem watches_empty (p : List Segment) :
    watches (empty : UniWatchInfoTree Cookie Cb) p = [] := by
  cases p <;> rfl

theorem watches_cons (t : UniWatchInfoTree Cookie Cb) (s : Segment) (p : List Segment) :
    watches t (s :: p) = watches ((t.kids.lookup s).getD empty) p := by
  unfold watches
  rw [Tree.content_cons]
  cases t.kids.lookup s with
  | none =>
    show [] = watches empty p
    rw [watches_empty]
  | some c => rfl

theorem watches_change (f : List (UniWatchInfo Cookie Cb) → List (UniWatchInfo Cookie Cb))
    (t : UniWatchInfoTree Cookie Cb) (key : UniConfKey) (p : List Segment) :
    watches (change f t key) p = if p = key.path then f (watches t p) else watches t p := by
  induction key generalizing t p with
  | nil =>
    cases p with
    | nil => rfl
    | cons s p => rw [change, watches_cons, watches_cons, if_neg (by simp)]
  | cons s key ih =>
    by_cases hs : s = []
    · rw [change, if_pos hs, ih, hs, path_cons_empty]
    · rw [change, if_neg hs, path_cons_of_ne hs]
      cases p with
      | nil => rw [if_neg (by simp)]; rfl
      | cons a p =>
        rw [watches_cons, watches_cons, Forest.lookup_insert]
        by_cases ha : a = fold s
        · rw [if_pos ha, Option.getD_some, ih, ha]
          simp
        · rw [if_neg ha, if_neg (by simp [ha])]

theorem watches_prune (t : UniWatchInfoTree Cookie Cb) (key : UniConfKey) (p : List Segment) :
    watches (prune t key) p = watches t p := by
  induction key generalizing t p with
  | nil => rfl
  | cons s key ih =>
    unfold prune
    split
    · exact ih t p
    · cases hl : t.kids.lookup (fold s) with
      | none => rfl
      | some node =>
        dsimp only
        cases p with
        | nil => split <;> rfl
        | cons a p =>
          split
          · rw [watches_cons, watches_cons, Forest.lookup_insert]
            split
            · rename_i ha
              rw [ha, hl, Option.getD_some, Option.getD_some, ih]
            · rfl
          · -- a node that is not essential has no watches in it
            rename_i hess
            rw [watches_cons, watches_cons, Forest.lookup_erase]
            split
            · rename_i ha
              rw [ha, hl, Option.getD_none, Option.getD_some, watches_empty, ← ih]
              simp only [isessential, haschildren, Bool.or_eq_true, Bool.not_eq_true',
                isEmpty_eq_false_iff, not_or, not_not] at hess
              obtain ⟨hkids, hval⟩ := hess
              cases hnode : prune node key with
              | mk val kids =>
                rw [hnode] at hkids hval
                cases kids with
                | nil =>
                  have hempty : val = [] := hval
                  rw [hempty]
                  exact (watches_empty p).symm
                | cons => cases hkids
            · rfl

variable {t : UniWatchInfoTree Cookie Cb} {f : Forest Segment (List (UniWatchInfo Cookie Cb))}

theorem proper_getD (hf : f.Proper (· ≠ [])) (s : Segment) : Proper ((f.lookup s).getD empty) := by
  cases hl : f.lookup s with
  | none => exact trivial
  | some c => exact hf.of_lookup hl

theorem proper_change (f : List (UniWatchInfo Cookie Cb) → List (UniWatchInfo Cookie Cb))
    (ht : Proper t) (key : UniConfKey) : Proper (change f t key) := by
  induction key generalizing t with
  | nil => exact ht
  | cons s key ih =>
    unfold change
    split
    · exact ih ht
    · rename_i hs
      exact Forest.Proper.insert ht hs (ih (proper_getD ht _))

theorem proper_prune (ht : Proper t) (key : UniConfKey) : Proper (prune t key) := by
  induction key generalizing t with
  | nil => exact ht
  | cons s key ih =>
    unfold prune
    split
    · exact ih ht
    · rename_i hs
      cases hl : t.kids.lookup (fold s) with
      | none => exact ht
      | some node =>
        dsimp only
        split
        · exact Forest.Proper.insert ht hs (ih (ht.of_lookup hl))
        · exact Forest.Proper.erase ht _

/-! ## All watches -/

theorem ne_nil_of_mem_below {e : List Segment × UniWatchInfo Cookie Cb} (he : e ∈ below f) :
    e.1 ≠ [] := by
  induction f with
  | nil => cases he
  | cons key ws sub rest _ ih =>
    rcases mem_append.mp he with he | he
    · obtain ⟨e', -, rfl⟩ := List.mem_map.mp he
      exact cons_ne_nil _ _
    · exact ih he

theorem filter_below (hf : f.Proper (· ≠ [])) (s : Segment)
    {P : List Segment × UniWatchInfo Cookie Cb → Bool}
    (hP : ∀ a q w, a ≠ s → P (a :: q, w) = false) :
    (below f).filter P = ((all ((f.lookup s).getD empty)).filter
      (P ∘ Prod.map (cons s) id)).map (Prod.map (cons s) id) := by
  induction f with
  | nil => rfl
  | cons key ws sub rest _ ih =>
    obtain ⟨-, hnew, -, hrest⟩ := hf
    rw [below, filter_append, ih hrest]
    have hall : ws.map (Prod.mk []) ++ below sub = all ⟨ws, sub⟩ := rfl
    by_cases hs : fold key = s
    · subst hs
      rw [hnew, Forest.lookup, if_pos rfl, filter_map, hall]
      exact append_nil _
    · have hnone : ((ws.map (Prod.mk []) ++ below sub).map
          (Prod.map (cons (fold key)) id)).filter P = [] := by
        rw [filter_eq_nil_iff]
        intro e he
        obtain ⟨⟨q, w⟩, -, rfl⟩ := List.mem_map.mp he
        simp [hP (fold key) q w hs]
      rw [hnone, nil_append, Forest.lookup, if_neg hs]

theorem filter_val (t : UniWatchInfoTree Cookie Cb)
    (P : List Segment × UniWatchInfo Cookie Cb → Bool) :
    (t.val.map (Prod.mk [])).filter P = (t.val.filter fun w => P ([], w)).map (Prod.mk []) := by
  rw [filter_map]
  rfl

theorem filter_all_cons (ht : Proper t) (s : Segment)
    {P : List Segment × UniWatchInfo Cookie Cb → Bool}
    (hP : ∀ a q w, a ≠ s → P (a :: q, w) = false) :
    (all t).filter P = (t.val.filter fun w => P ([], w)).map (Prod.mk []) ++
      ((all ((t.kids.lookup s).getD empty)).filter (P ∘ Prod.map (cons s) id)).map
        (Prod.map (cons s) id) := by
  rw [all, filter_append, filter_val, filter_below ht s hP]

theorem filter_all (ht : Proper t) (p : List Segment) :
    (all t).filter (fun e => e.1 = p) = (watches t p).map (Prod.mk p) := by
  induction p generalizing t with
  | nil =>
    have hnone : (below t.kids).filter (fun e => e.1 = []) = [] := by
      rw [filter_eq_nil_iff]
      intro e he
      simpa using ne_nil_of_mem_below he
    rw [all, filter_append, filter_val, hnone, append_nil, watches_nil]
    simp
  | cons s p ih =>
    have hfun : ((fun e : List Segment × UniWatchInfo Cookie Cb => decide (e.1 = s :: p)) ∘
        Prod.map (cons s) id) = fun e => decide (e.1 = p) := by
      funext e
      simp
    rw [filter_all_cons ht s (by intro a q w ha; simp [ha]), hfun, ih (proper_getD ht s),
      map_map, watches_cons]
    simp

end UniWatchInfoTree

structure UniConfRoot (Cookie Cb : Type) where
  watchroot : UniWatchInfoTree Cookie Cb
  proper : UniConfTree.Proper watchroot

/-- A call of a watch's callback, with the place and the key relative to it that it is told. -/
structure Notified (Cookie Cb : Type) where
  watch : UniWatchInfo Cookie Cb
  cfg : UniConfKey
  key : UniConfKey
  deriving DecidableEq

def Notified.placed {Cookie Cb : Type} (n : Notified Cookie Cb) :
    List Segment × UniWatchInfo Cookie Cb :=
  (n.cfg.path, n.watch)

namespace UniConfRoot

variable {Cookie Cb : Type}

def create : UniConfRoot Cookie Cb := ⟨.empty, trivial⟩

def add_callback (r : UniConfRoot Cookie Cb) (cookie : Cookie) (key : UniConfKey) (callback : Cb)
    (recurse : Bool) : UniConfRoot Cookie Cb :=
  let w : UniWatchInfo Cookie Cb := ⟨cookie, recurse, callback⟩
  ⟨UniWatchInfoTree.change (· ++ [w]) r.watchroot key, UniWatchInfoTree.proper_change _ r.proper key⟩

def del_callback [DecidableEq Cookie] (r : UniConfRoot Cookie Cb) (cookie : Cookie)
    (key : UniConfKey) (recurse : Bool) : UniConfRoot Cookie Cb :=
  match UniConfTree.find r.watchroot key with
  | none => r
  | some _ =>
    -- remove the watch if it matches
    let unlinked := UniWatchInfoTree.change
      (eraseP fun w => w.cookie = cookie && w.recurse = recurse) r.watchroot key
    ⟨UniWatchInfoTree.prune unlinked key,
      UniWatchInfoTree.proper_prune (UniWatchInfoTree.proper_change _ r.proper key) key⟩

def check (node : UniWatchInfoTree Cookie Cb) (key : UniConfKey) (segleft : Nat) :
    List (Notified Cookie Cb) :=
  (node.val.filter fun w => !(!w.recurse && 0 < segleft)).map fun w =>
    ⟨w, key.removelastN segleft, key.lastN segleft⟩

def deletioncheck (key : UniConfKey) :
    Forest Segment (List (UniWatchInfo Cookie Cb)) → List (Notified Cookie Cb)
  | .nil => []
  | .cons name watches sub rest =>
    let subkey := UniConfKey.concat key [name]
    -- pretend that we wiped out just this key
    check ⟨watches, sub⟩ subkey 0 ++ deletioncheck subkey sub ++ deletioncheck key rest

/-- The loop of `gen_callback` at a node, with the segments that are still to come. -/
def callbackLoop (key : UniConfKey) (value : WvString) :
    UniWatchInfoTree Cookie Cb → UniConfKey → List (Notified Cookie Cb)
  | node, [] => if value.isNone then deletioncheck key node.kids else []
  | node, s :: rest =>
    match UniConfTree.findchild node s with
    | none => []
    | some node => check node key rest.length ++ callbackLoop key value node rest

def gen_callback (r : UniConfRoot Cookie Cb) (key : UniConfKey) (value : WvString) :
    List (Notified Cookie Cb) :=
  check r.watchroot key key.length ++ callbackLoop key value r.watchroot key

/-! ## Registrations -/

inductive Op (Cookie Cb : Type) where
  | add_callback (cookie : Cookie) (key : UniConfKey) (callback : Cb) (recurse : Bool)
  | del_callback (cookie : Cookie) (key : UniConfKey) (recurse : Bool)

structure Registration (Cookie Cb : Type) where
  key : UniConfKey
  watch : UniWatchInfo Cookie Cb

def Registration.placed (r : Registration Cookie Cb) : List Segment × UniWatchInfo Cookie Cb :=
  (r.key.path, r.watch)

variable [DecidableEq Cookie]

def op (r : UniConfRoot Cookie Cb) : Op Cookie Cb → UniConfRoot Cookie Cb
  | .add_callback cookie key callback recurse => r.add_callback cookie key callback recurse
  | .del_callback cookie key recurse => r.del_callback cookie key recurse

def run (ops : List (Op Cookie Cb)) : UniConfRoot Cookie Cb := ops.foldl op create

/-- What such a call does to the list of registrations: the oldest of those that match is
cancelled. -/
def refOp (regs : List (Registration Cookie Cb)) : Op Cookie Cb → List (Registration Cookie Cb)
  | .add_callback cookie key callback recurse => regs ++ [⟨key, ⟨cookie, recurse, callback⟩⟩]
  | .del_callback cookie key recurse =>
    regs.eraseP fun r => r.key.path = key.path &&
      (r.watch.cookie = cookie && r.watch.recurse = recurse)

def refRun (ops : List (Op Cookie Cb)) : List (Registration Cookie Cb) := ops.foldl refOp []

omit [DecidableEq Cookie] in
/-- A watch is concerned by a change at a path if it is there or, being recursive, above it, and
by a removal if it is below. -/
def concerned (p : List Segment) (removed : Bool) (e : List Segment × UniWatchInfo Cookie Cb) :
    Bool :=
  e.1 = p || (e.2.recurse && e.1 <+: p) || (removed && p <+: e.1)

/-! ## What one announcement reaches -/

section

omit [DecidableEq Cookie]

theorem path_removelastN (pre rest : UniConfKey) :
    ((pre ++ rest).removelastN rest.length).path = pre.path := by
  rw [removelastN, UniConfKey.range, path_collapse, drop_zero,
    length_append, Nat.add_sub_cancel_right, take_left]

open Notified

theorem check_placed (node : UniWatchInfoTree Cookie Cb) (pre rest : UniConfKey) :
    (check node (pre ++ rest) rest.length).map placed =
      (node.val.filter fun w => w.recurse || rest.isEmpty).map (Prod.mk pre.path) := by
  have hpath := path_removelastN pre rest
  rw [check, map_map]
  have hfilter : (fun w : UniWatchInfo Cookie Cb => !(!w.recurse && decide (0 < rest.length))) =
      fun w => w.recurse || rest.isEmpty := by
    funext w
    cases rest <;> simp
  rw [hfilter]
  apply map_congr_left
  intro w _
  exact congrArg (Prod.mk · w) hpath

theorem check_self (node : UniWatchInfoTree Cookie Cb) (key : UniConfKey) :
    (check node key 0).map placed = node.val.map (Prod.mk key.path) := by
  simpa using check_placed node key []

open UniWatchInfoTree

theorem deletioncheck_placed (key : UniConfKey)
    {f : Forest Segment (List (UniWatchInfo Cookie Cb))} (hf : f.Proper (· ≠ [])) :
    (deletioncheck key f).map placed =
      (below f).map (Prod.map (key.path ++ ·) id) := by
  induction f generalizing key with
  | nil => rfl
  | cons name ws sub rest ihs ihr =>
    obtain ⟨hname, -, hsub, hrest⟩ := hf
    have hpath : path (concat key [name]) = key.path ++ [fold name] := by
      rw [path_concatKey, path_cons_of_ne hname]
      rfl
    have hfun : Prod.map (key.path ++ ·) id ∘ Prod.map (cons (fold name)) id =
        (Prod.map (key.path ++ [fold name] ++ ·) id : List Segment × UniWatchInfo Cookie Cb → _) := by
      funext e
      obtain ⟨q, w⟩ := e
      simp
    simp only [deletioncheck, below, map_append, check_self, ihs _ hsub,
      ihr _ hrest, hpath, map_map, hfun]
    congr 2

theorem concerned_cons (s : Segment) (p : List Segment) (removed : Bool) :
    (concerned (s :: p) removed : List Segment × UniWatchInfo Cookie Cb → Bool) ∘
      Prod.map (cons s) id = concerned p removed := by
  funext e
  simp [concerned]

theorem callback_end_placed {node : UniWatchInfoTree Cookie Cb} (hnode : Proper node)
    (key : UniConfKey) (value : WvString) :
    (check node key 0 ++ callbackLoop key value node []).map placed =
      ((all node).filter (concerned [] value.isNone)).map (Prod.map (key.path ++ ·) id) := by
  have hbelow : (below node.kids).filter (concerned [] value.isNone) =
      if value.isNone then below node.kids else [] := by
    have hsame : ∀ e ∈ below node.kids, concerned [] value.isNone e = value.isNone := by
      intro e he
      have hne := ne_nil_of_mem_below he
      simp [concerned, hne]
    rw [filter_congr hsame]
    cases value.isNone <;> simp
  have hloop : (callbackLoop key value node []).map placed =
      ((below node.kids).filter (concerned [] value.isNone)).map
        (Prod.map (key.path ++ ·) id) := by
    rw [callbackLoop, hbelow]
    split
    · exact deletioncheck_placed key hnode
    · rfl
  rw [map_append, check_self, hloop, UniWatchInfoTree.all, filter_append,
    filter_val, map_append, map_map]
  congr 1
  simp [concerned, Function.comp_def]

theorem check_slash_placed (node : UniWatchInfoTree Cookie Cb) (pre : UniConfKey) :
    (check node (pre ++ [[]]) 1).map placed =
      ((all node).filter fun e => e.1 = [] && e.2.recurse).map (Prod.map (pre.path ++ ·) id) := by
  have hnone : (below node.kids).filter
      (fun e => e.1 = [] && e.2.recurse) = [] := by
    rw [filter_eq_nil_iff]
    intro e he
    simp [ne_nil_of_mem_below he]
  have hcheck : (check node (pre ++ [[]]) 1).map placed = _ := check_placed node pre [[]]
  rw [UniWatchInfoTree.all, filter_append, filter_val, hnone]
  simpa [Function.comp_def] using hcheck

theorem callbackLoop_placed {node : UniWatchInfoTree Cookie Cb} (hnode : Proper node)
    (value : WvString) (slash : Bool) (pre : UniConfKey) {rest : UniConfKey} (hrest : rest.Plain) :
    let tail : UniConfKey := if slash then [[]] else []
    let key := pre ++ (rest ++ tail)
    ((check node key (rest ++ tail).length ++ callbackLoop key value node (rest ++ tail)).map
      placed).Perm
      (((all node).filter (concerned rest.path value.isNone) ++
        if slash then (all node).filter fun e => e.1 = rest.path && e.2.recurse
        else []).map (Prod.map (pre.path ++ ·) id)) := by
  induction rest generalizing node pre with
  | nil =>
    intro tail key
    have hkey : key.path = pre.path := by
      rw [path_append]
      cases slash <;> exact append_nil _
    have hend := callback_end_placed hnode key value
    rw [hkey] at hend
    cases slash with
    | false =>
      show ((check node key 0 ++ callbackLoop key value node []).map placed).Perm _
      rw [hend]
      simp
    | true =>
      have hagain : (check node key 1).map placed = _ := check_slash_placed node pre
      show ((check node key 1 ++ (check node key 0 ++ callbackLoop key value node [])).map
        placed).Perm _
      rw [map_append, hagain, hend, map_append]
      exact perm_append_comm
  | cons s rest ih =>
    intro tail key
    have hs : s ≠ [] := fun e => hrest (e ▸ mem_cons_self)
    have hrest' : Plain rest := fun h => hrest (mem_cons_of_mem _ h)
    have hkey : key = (pre ++ [s]) ++ (rest ++ tail) := by simp [key]
    have hpath : path (pre ++ [s]) = pre.path ++ [fold s] :=
      path_concat pre hs rfl
    have hcheck : (check node key (s :: rest ++ tail).length).map placed = _ :=
      check_placed node pre (s :: rest ++ tail)
    have hconcerned := filter_all_cons hnode (fold s)
      (P := concerned (fold s :: path rest) value.isNone) (by
        intro a q w ha
        simp [concerned, ha, Ne.symm ha])
    have hagain := filter_all_cons hnode (fold s)
      (P := fun e => e.1 = fold s :: path rest && e.2.recurse) (by
        intro a q w ha
        simp [ha])
    have hfun : (fun e : List Segment × UniWatchInfo Cookie Cb =>
        decide (e.1 = fold s :: path rest) && e.2.recurse) ∘
          Prod.map (cons (fold s)) id =
            fun e => decide (e.1 = path rest) && e.2.recurse := by
      funext e
      simp
    rw [concerned_cons] at hconcerned
    rw [hfun] at hagain
    generalize hchild : (node.kids.lookup (fold s)).getD empty = child at *
    -- after the watches of the node itself come those of the child
    have hbelow : ((callbackLoop key value node (s :: (rest ++ tail))).map placed).Perm
        (((all child).filter (concerned (path rest) value.isNone) ++
          if slash then (all child).filter
            fun e => e.1 = path rest && e.2.recurse
          else []).map (Prod.map (path (pre ++ [s]) ++ ·) id)) := by
      rw [callbackLoop, findchild_of_ne hs]
      cases hl : node.kids.lookup (fold s) with
      | none =>
        have hall : all child = [] := by
          rw [← hchild, hl]
          rfl
        simp [hall]
      | some c =>
        rw [hl, Option.getD_some] at hchild
        rw [hkey, ← hchild]
        exact ih (hnode.of_lookup hl) (pre ++ [s]) hrest'
    have hmap : ∀ l : List (List Segment × UniWatchInfo Cookie Cb),
        (l.map (Prod.map (cons (fold s)) id)).map (Prod.map (pre.path ++ ·) id) =
          l.map (Prod.map (path (pre ++ [s]) ++ ·) id) := by
      intro l
      rw [map_map, hpath]
      apply map_congr_left
      intro e _
      simp [Prod.map]
    have hself : ∀ l : List (UniWatchInfo Cookie Cb),
        (l.map (Prod.mk [])).map (Prod.map (pre.path ++ ·) id) = l.map (Prod.mk pre.path) := by
      intro l
      simp
    show (map _ (check node key (s :: rest ++ tail).length ++
      callbackLoop key value node (s :: (rest ++ tail)))).Perm _
    rw [path_cons_of_ne hs, hconcerned, map_append, hcheck]
    refine (hbelow.append_left _).trans (List.Perm.of_eq ?_)
    cases slash with
    | false =>
      simp only [Bool.false_eq_true, if_false, append_nil, map_append, hmap, hself]
      simp [concerned]
    | true =>
      simp only [if_true, hagain, map_append, hmap, hself, append_assoc]
      simp [concerned]

end

/-! ## Registered watches -/

/-- The watches in the tree are those registered, in the order of registration at each path. -/
def Registered (r : UniConfRoot Cookie Cb) (regs : List (Registration Cookie Cb)) : Prop :=
  ∀ p, UniWatchInfoTree.watches r.watchroot p =
    (regs.filter fun reg => reg.key.path = p).map Registration.watch

theorem filter_eraseP_of_imp {α : Type} {p f : α → Bool} (h : ∀ a, p a → f a = false) (l : List α) :
    (l.eraseP p).filter f = l.filter f := by
  induction l with
  | nil => rfl
  | cons a l ih =>
    rw [eraseP_cons]
    cases hp : p a with
    | true => simp [h a hp]
    | false => simp [filter_cons, ih]

variable {r : UniConfRoot Cookie Cb} {regs : List (Registration Cookie Cb)}

theorem registered_op (h : Registered r regs) (o : Op Cookie Cb) :
    Registered (r.op o) (refOp regs o) := by
  intro p
  cases o with
  | add_callback cookie key callback recurse =>
    show UniWatchInfoTree.watches (UniWatchInfoTree.change _ r.watchroot key) p = _
    rw [UniWatchInfoTree.watches_change, h p, refOp, filter_append, map_append]
    by_cases hp : p = key.path
    · simp [hp]
    · simp [hp, Ne.symm hp]
  | del_callback cookie key recurse =>
    -- where the node is missing there is nothing to remove
    have hwatches : UniWatchInfoTree.watches (r.del_callback cookie key recurse).watchroot p =
        if p = key.path then
          (UniWatchInfoTree.watches r.watchroot p).eraseP
            fun w => w.cookie = cookie && w.recurse = recurse
        else UniWatchInfoTree.watches r.watchroot p := by
      unfold del_callback
      cases hf : find r.watchroot key with
      | none =>
        rw [find_eq] at hf
        dsimp only
        split
        · rename_i hp
          rw [hp, UniWatchInfoTree.watches, (Tree.content_eq_none_iff _ _).mpr hf]
          rfl
        · rfl
      | some node =>
        show UniWatchInfoTree.watches (UniWatchInfoTree.prune _ key) p = _
        rw [UniWatchInfoTree.watches_prune, UniWatchInfoTree.watches_change]
    show UniWatchInfoTree.watches (r.del_callback cookie key recurse).watchroot p = _
    rw [hwatches, h p, refOp]
    by_cases hp : p = key.path
    · subst hp
      rw [if_pos rfl, eraseP_map, eraseP_filter]
      congr 3
      funext reg
      exact Bool.and_comm _ _
    · rw [if_neg hp, filter_eraseP_of_imp]
      intro reg hreg
      simp only [Bool.and_eq_true, decide_eq_true_eq] at hreg
      rw [hreg.1]
      exact decide_eq_false (Ne.symm hp)

theorem registered_run (ops : List (Op Cookie Cb)) :
    Registered (run ops : UniConfRoot Cookie Cb) (refRun ops) := by
  have hstart : Registered (create : UniConfRoot Cookie Cb) [] :=
    fun p => UniWatchInfoTree.watches_empty p
  have hrun : ∀ (ops : List (Op Cookie Cb)) {r : UniConfRoot Cookie Cb}
      {regs : List (Registration Cookie Cb)}, Registered r regs →
      Registered (ops.foldl op r) (ops.foldl refOp regs) := by
    intro ops
    induction ops with
    | nil => exact fun h => h
    | cons o ops ih => exact fun h => ih (registered_op h o)
  exact hrun ops hstart

omit [DecidableEq Cookie] in
theorem perm_of_filter_fst {α β : Type} [DecidableEq α] {l l' : List (α × β)}
    (h : ∀ a, l.filter (fun e => e.1 = a) = l'.filter (fun e => e.1 = a)) : l.Perm l' := by
  classical
  rw [perm_iff_count]
  rintro ⟨a, b⟩
  have hcount : ∀ l : List (α × β), l.count (a, b) = (l.filter fun e => e.1 = a).count (a, b) :=
    fun l => (count_filter (by simp)).symm
  rw [hcount l, hcount l', h a]

omit [DecidableEq Cookie] in
theorem Registered.perm (h : Registered r regs) :
    (UniWatchInfoTree.all r.watchroot).Perm (regs.map Registration.placed) := by
  apply perm_of_filter_fst
  intro p
  rw [UniWatchInfoTree.filter_all r.proper, h p, filter_map, map_map]
  apply map_congr_left
  intro reg hreg
  have hp := (mem_filter.mp hreg).2
  simp only [decide_eq_true_eq] at hp
  rw [← hp]
  rfl

omit [DecidableEq Cookie] in
/-- The watches that an announcement reaches, each with the place that it is told. -/
theorem delivered (h : Registered r regs) (key : ValidKey) (value : WvString) :
    ((r.gen_callback key value).map Notified.placed).Perm
      ((regs.map Registration.placed).filter (concerned key.1.path value.isNone) ++
        if key.1.hastrailingslash then
          (regs.map Registration.placed).filter fun e => e.1 = key.1.path && e.2.recurse
        else []) := by
  obtain ⟨key, hkey⟩ := key
  have hperm := h.perm
  have hid : ∀ l : List (List Segment × UniWatchInfo Cookie Cb),
      l.map (Prod.map (path [] ++ ·) id) = l := by
    intro l
    exact (congrArg (map · l) (funext fun _ => rfl)).trans (map_id l)
  rcases hkey.cases with hplain | ⟨k, -, hplain, rfl⟩
  · have hloop := callbackLoop_placed r.proper value false [] hplain
    rw [hid] at hloop
    rw [hplain.not_slash]
    refine (List.Perm.of_eq ?_).trans (hloop.trans ?_)
    · simp [gen_callback]
    · exact (hperm.filter _).append_right _
  · have hloop := callbackLoop_placed r.proper value true [] hplain
    rw [hid] at hloop
    rw [slash_hastrailingslash, path_slash]
    exact hloop.trans ((hperm.filter _).append (hperm.filter _))

/-- An announcement reaches exactly the watches that are concerned, each once and told the place
it is registered at, if and only if the key has no trailing slash or no recursive watch is
registered at it. -/
theorem delivered_once_iff (ops : List (Op Cookie Cb)) (key : ValidKey) (value : WvString) :
    (((run ops : UniConfRoot Cookie Cb).gen_callback key value).map Notified.placed).Perm
        (((refRun ops).map Registration.placed).filter (concerned key.1.path value.isNone)) ↔
      (key.1.hastrailingslash = true →
        ∀ reg ∈ (refRun ops : List (Registration Cookie Cb)), reg.key.path = key.1.path →
          reg.watch.recurse = false) := by
  have h := delivered (registered_run ops) key value
  constructor
  · intro hperm hslash reg hreg hpath
    have hlen := (h.symm.trans hperm).length_eq
    rw [if_pos hslash, length_append, Nat.add_eq_left, length_eq_zero_iff,
      filter_eq_nil_iff] at hlen
    have hnot := hlen _ (mem_map_of_mem hreg)
    simpa [Registration.placed, hpath] using hnot
  · intro hnone
    refine h.trans (List.Perm.of_eq ?_)
    rw [append_right_eq_self]
    split
    · rename_i hslash
      rw [filter_eq_nil_iff]
      intro e he
      obtain ⟨reg, hreg, rfl⟩ := List.mem_map.mp he
      intro hboth
      simp only [Registration.placed, Bool.and_eq_true] at hboth
      obtain ⟨hpath, hrec⟩ := hboth
      rw [hnone hslash reg hreg (of_decide_eq_true hpath)] at hrec
      cases hrec
    · rfl

/-- A recursive watch at `a` hears twice that `a/` is gone. -/
theorem delivered_twice :
    let ops : List (Op Nat Unit) := [.add_callback 1 [[97]] () true]
    ¬ ((((run ops).gen_callback [[97], []] none).map Notified.placed).Perm
      (((refRun ops).map Registration.placed).filter
        (concerned (path [[97], []]) true))) := by
  intro ops h
  have hlen := h.length_eq
  revert hlen
  decide

end UniConfRoot

end WvStreams
