import Mathlib.Data.List.Basic
import Mathlib.Order.Basic

/-!
# Extended regular expressions

The extended regular expressions of POSIX without classes of characters and without intervals.
`read` goes once through the characters, with the groups that are open on a stack. An empty branch
matches the empty string, as it does in the GNU library. The anchors match at the ends of a string
only, so that matching a part of a string is about what is around it, too.
-/

namespace WvStreams.Lib.Ere

open List

def opens : List UInt8 → Bool
  | a :: b :: s => (a = 91 && (b = 46 || b = 58 || b = 61)) || opens (b :: s)
  | _ => false

/-- The ranges of a bracket expression; none if the ends of one are in the wrong order, or if one
begins where another one ends. -/
def items : List UInt8 → Option (List (UInt8 × UInt8))
  | [] => some []
  | [a] => some [(a, a)]
  | [a, b] => some [(a, a), (b, b)]
  | a :: b :: c :: s =>
    if b = 45 then
      if a ≤ c ∧ ¬ (s.head? = some 45 ∧ s.tail ≠ []) then (items s).map ((a, c) :: ·) else none
    else (items (b :: c :: s)).map ((a, a) :: ·)

def ranges (body : List UInt8) : Option (List (UInt8 × UInt8)) :=
  if opens body then none else items body

theorem ranges_cons {a b : UInt8} {s : List UInt8} {l : List (UInt8 × UInt8)} (ha : a ≠ 91)
    (hb : b = 45 → s = []) (h : ranges (a :: b :: s) = some l) :
    ∃ l', ranges (b :: s) = some l' ∧ l = (a, a) :: l' := by
  have hopens : opens (a :: b :: s) = opens (b :: s) := by
    simp [opens, ha]
  rw [ranges, hopens] at h
  rw [ranges]
  split at h
  · cases h
  · rename_i hfalse
    rw [if_neg hfalse]
    cases s with
    | nil => exact ⟨[(b, b)], rfl, (Option.some.inj h).symm⟩
    | cons c s =>
      rw [items, if_neg fun heq => cons_ne_nil c s (hb heq)] at h
      obtain ⟨l', hl, rfl⟩ := Option.map_eq_some_iff.mp h
      exact ⟨l', hl, rfl⟩

def Listed (l : List (UInt8 × UInt8)) (c : UInt8) : Prop := ∃ p ∈ l, p.1 ≤ c ∧ c ≤ p.2

theorem listed_cons_iff {a c : UInt8} {l : List (UInt8 × UInt8)} :
    Listed ((a, a) :: l) c ↔ c = a ∨ Listed l c := by
  rw [Listed, exists_mem_cons_iff]
  apply or_congr_left
  constructor
  · rintro ⟨hle, hge⟩
    exact UInt8.le_antisymm hge hle
  · rintro rfl
    exact ⟨UInt8.le_refl c, UInt8.le_refl c⟩

theorem listed_one_iff {a c : UInt8} : Listed [(a, a)] c ↔ c = a := by
  rw [listed_cons_iff, or_iff_left_iff_imp]
  rintro ⟨p, hp, -⟩
  cases hp

inductive Expr where
  | empty
  | char (c : UInt8)
  | any
  | set (neg : Bool) (l : List (UInt8 × UInt8))
  | start
  | finish
  | cat (r s : Expr)
  | alt (r s : Expr)
  | star (r : Expr)
  | plus (r : Expr)
  | opt (r : Expr)

/-- The expression matches some characters, between those in front of them and those behind. -/
inductive Matches : Expr → List UInt8 → List UInt8 → List UInt8 → Prop where
  | empty (pre post) : Matches .empty pre [] post
  | char (c pre post) : Matches (.char c) pre [c] post
  | any (c pre post) : Matches .any pre [c] post
  | set {neg l c} (h : Listed l c ↔ neg = false) (pre post) : Matches (.set neg l) pre [c] post
  | start (post) : Matches .start [] [] post
  | finish (pre) : Matches .finish pre [] []
  | cat {r s pre a b post} (hr : Matches r pre a (b ++ post)) (hs : Matches s (pre ++ a) b post) :
    Matches (.cat r s) pre (a ++ b) post
  | left {r s pre mid post} (h : Matches r pre mid post) : Matches (.alt r s) pre mid post
  | right {r s pre mid post} (h : Matches s pre mid post) : Matches (.alt r s) pre mid post
  | done (r pre post) : Matches (.star r) pre [] post
  | more {r pre a b post} (hr : Matches r pre a (b ++ post))
    (hmore : Matches (.star r) (pre ++ a) b post) : Matches (.star r) pre (a ++ b) post
  | plus {r pre mid post} (h : Matches (.cat r (.star r)) pre mid post) :
    Matches (.plus r) pre mid post
  | skip (r pre post) : Matches (.opt r) pre [] post
  | take {r pre mid post} (h : Matches r pre mid post) : Matches (.opt r) pre mid post

/-- A part of the string matches. -/
def Accepts (r : Expr) (s : List UInt8) : Prop :=
  ∃ pre mid post, s = pre ++ mid ++ post ∧ Matches r pre mid post

section Matches

variable {r s : Expr} {pre mid post : List UInt8}

theorem matches_empty_iff : Matches .empty pre mid post ↔ mid = [] := by
  constructor
  · rintro ⟨⟩
    rfl
  · rintro rfl
    exact .empty pre post

theorem matches_char_iff {c : UInt8} : Matches (.char c) pre mid post ↔ mid = [c] := by
  constructor
  · rintro ⟨⟩
    rfl
  · rintro rfl
    exact .char c pre post

theorem matches_set_iff {neg : Bool} {l : List (UInt8 × UInt8)} :
    Matches (.set neg l) pre mid post ↔ ∃ c, mid = [c] ∧ (Listed l c ↔ neg = false) := by
  constructor
  · intro h
    cases h with
    | set h => exact ⟨_, rfl, h⟩
  · rintro ⟨c, rfl, h⟩
    exact .set h pre post

theorem matches_start_iff : Matches .start pre mid post ↔ pre = [] ∧ mid = [] := by
  constructor
  · rintro ⟨⟩
    exact ⟨rfl, rfl⟩
  · rintro ⟨rfl, rfl⟩
    exact .start post

theorem matches_finish_iff : Matches .finish pre mid post ↔ mid = [] ∧ post = [] := by
  constructor
  · rintro ⟨⟩
    exact ⟨rfl, rfl⟩
  · rintro ⟨rfl, rfl⟩
    exact .finish pre

theorem matches_cat_iff : Matches (.cat r s) pre mid post ↔
    ∃ a b, mid = a ++ b ∧ Matches r pre a (b ++ post) ∧ Matches s (pre ++ a) b post := by
  constructor
  · intro h
    cases h with
    | cat hr hs => exact ⟨_, _, rfl, hr, hs⟩
  · rintro ⟨a, b, rfl, hr, hs⟩
    exact .cat hr hs

theorem matches_alt_iff :
    Matches (.alt r s) pre mid post ↔ Matches r pre mid post ∨ Matches s pre mid post := by
  constructor
  · intro h
    cases h with
    | left h => exact Or.inl h
    | right h => exact Or.inr h
  · rintro (h | h)
    · exact .left h
    · exact .right h

theorem matches_star_set_iff {neg : Bool} {l : List (UInt8 × UInt8)} :
    Matches (.star (.set neg l)) pre mid post ↔ ∀ c ∈ mid, Listed l c ↔ neg = false := by
  constructor
  · intro h
    generalize hr : Expr.star (.set neg l) = r at h
    induction h with
    | done => exact forall_mem_nil _
    | more hr' _ _ ih =>
      cases hr
      obtain ⟨c, rfl, hc⟩ := matches_set_iff.mp hr'
      rw [singleton_append, forall_mem_cons]
      exact ⟨hc, ih rfl⟩
    | _ => cases hr
  · intro h
    induction mid generalizing pre with
    | nil => exact .done _ pre post
    | cons c mid ih =>
      rw [forall_mem_cons] at h
      exact .more (.set h.1 pre (mid ++ post)) (ih h.2)

end Matches

/-- What was read of a group: the branches in front of the last `|`, and the last one, whose last
part may be repeated. -/
structure Frame where
  branches : Option Expr
  front : Expr
  last : Option Expr

namespace Frame

def new : Frame := ⟨none, .empty, none⟩

def branch (f : Frame) : Expr :=
  match f.last with
  | none => f.front
  | some r => .cat f.front r

def close (f : Frame) : Expr :=
  match f.branches with
  | none => f.branch
  | some r => .alt r f.branch

def push (f : Frame) (r : Expr) : Frame := ⟨f.branches, f.branch, some r⟩

def bar (f : Frame) : Frame := ⟨some f.close, .empty, none⟩

def repeated (f : Frame) (sign : Expr → Expr) : Option Frame :=
  f.last.map fun r => { f with last := some (sign r) }

@[simp] theorem branch_push (f : Frame) (r : Expr) : (f.push r).branch = .cat f.branch r := rfl

@[simp] theorem branches_push (f : Frame) (r : Expr) : (f.push r).branches = f.branches := rfl

end Frame

inductive Mode where
  | normal
  | quoted
  | opened
  | bracket (neg : Bool) (body : List UInt8)

structure State where
  mode : Mode
  frame : Frame
  outer : List Frame

def State.put (st : State) (r : Expr) : State := ⟨.normal, st.frame.push r, st.outer⟩

def State.repeated (st : State) (sign : Expr → Expr) : Option State :=
  (st.frame.repeated sign).map fun f => { st with frame := f }

/-- A character outside of brackets. -/
def special (st : State) (c : UInt8) : Option State :=
  if c = 92 then some { st with mode := .quoted }
  else if c = 91 then some { st with mode := .opened }
  else if c = 40 then some ⟨.normal, .new, st.frame :: st.outer⟩
  else if c = 41 then
    match st.outer with
    | [] => none
    | f :: outer => some ⟨.normal, f.push st.frame.close, outer⟩
  else if c = 124 then some { st with frame := st.frame.bar }
  else if c = 42 then st.repeated .star
  else if c = 43 then st.repeated .plus
  else if c = 63 then st.repeated .opt
  -- an interval
  else if c = 123 then none
  else if c = 94 then some (st.put .start)
  else if c = 36 then some (st.put .finish)
  else if c = 46 then some (st.put .any)
  else some (st.put (.char c))

def step (st : State) (c : UInt8) : Option State :=
  match st.mode with
  | .normal => special st c
  | .quoted => some (st.put (.char c))
  | .opened =>
    some { st with mode := if c = 94 then .bracket true [] else .bracket false [c] }
  | .bracket neg body =>
    -- a bracket in front is one of the characters
    if c = 93 ∧ body ≠ [] then (ranges body).map fun l => st.put (.set neg l)
    else some { st with mode := .bracket neg (body ++ [c]) }

def run : State → List UInt8 → Option State
  | st, [] => some st
  | st, c :: s => (step st c).bind fun st => run st s

/-- The expression that is written so. -/
def read (s : List UInt8) : Option Expr :=
  (run ⟨.normal, .new, []⟩ s).bind fun st =>
    match st.mode, st.outer with
    | .normal, [] => some st.frame.close
    | _, _ => none

theorem run_bracket {neg : Bool} {body w : List UInt8} (hbody : body ≠ []) (hw : 93 ∉ w)
    {l : List (UInt8 × UInt8)} (hl : ranges (body ++ w) = some l) (f : Frame) (outer : List Frame)
    (s : List UInt8) :
    run ⟨.bracket neg body, f, outer⟩ (w ++ 93 :: s) =
      run ⟨.normal, f.push (.set neg l), outer⟩ s := by
  induction w generalizing body with
  | nil =>
    rw [append_nil] at hl
    have hstep : step ⟨.bracket neg body, f, outer⟩ 93 =
        some ⟨.normal, f.push (.set neg l), outer⟩ := by
      refine (if_pos ⟨rfl, hbody⟩).trans ?_
      rw [hl]
      rfl
    rw [nil_append, run, hstep, Option.bind_some]
  | cons c w ih =>
    rw [mem_cons, not_or] at hw
    have hstep : step ⟨.bracket neg body, f, outer⟩ c =
        some ⟨.bracket neg (body ++ [c]), f, outer⟩ :=
      if_neg fun h => hw.1 h.1.symm
    rw [cons_append, run, hstep, Option.bind_some]
    exact ih (by simp) hw.2 (by rwa [append_assoc, singleton_append])

section Parts

variable {w v : List UInt8} {P Q : List UInt8 → Prop}

/-- Behind what the last branch of `f` matches, that of `f'` matches what `P` says. -/
structure Frame.Continues (f f' : Frame) (P : List UInt8 → Prop) : Prop where
  branches : f'.branches = f.branches
  branch (pre mid post : List UInt8) : Matches f'.branch pre mid post ↔
    ∃ a b, mid = a ++ b ∧ Matches f.branch pre a (b ++ post) ∧ P b

/-- A part of a branch, which matches what `P` says wherever it is. -/
def Reads (w : List UInt8) (P : List UInt8 → Prop) : Prop :=
  ∀ f outer rest, ∃ f', run ⟨.normal, f, outer⟩ (w ++ rest) = run ⟨.normal, f', outer⟩ rest ∧
    f.Continues f' P

/-- What is behind an opening parenthesis or a `|`. -/
def ReadsBranches (w : List UInt8) (P : List UInt8 → Prop) : Prop :=
  ∀ (branches : Option Expr) outer rest,
    ∃ f', run ⟨.normal, ⟨branches, .empty, none⟩, outer⟩ (w ++ rest) =
        run ⟨.normal, f', outer⟩ rest ∧ ∀ pre mid post, Matches f'.close pre mid post ↔
        (∃ r ∈ branches, Matches r pre mid post) ∨ P mid

theorem Frame.matches_close_iff (f : Frame) (pre mid post : List UInt8) :
    Matches f.close pre mid post ↔
      (∃ r ∈ f.branches, Matches r pre mid post) ∨ Matches f.branch pre mid post := by
  rw [Frame.close]
  cases f.branches with
  | none => simp
  | some r => simp [matches_alt_iff]

theorem Reads.iff (h : Reads w P) (hiff : ∀ s, P s ↔ Q s) : Reads w Q := by
  obtain rfl : P = Q := funext fun s => propext (hiff s)
  exact h

theorem reads_nil : Reads [] (· = []) := by
  intro f outer rest
  refine ⟨f, rfl, rfl, fun pre mid post => ?_⟩
  constructor
  · intro h
    exact ⟨mid, [], (append_nil mid).symm, h, rfl⟩
  · rintro ⟨a, b, rfl, h, rfl⟩
    rwa [append_nil]

theorem Reads.append (hw : Reads w P) (hv : Reads v Q) :
    Reads (w ++ v) fun s => ∃ a b, s = a ++ b ∧ P a ∧ Q b := by
  intro f outer rest
  obtain ⟨f', hrun, hf⟩ := hw f outer (v ++ rest)
  obtain ⟨f'', hrun', hf'⟩ := hv f' outer rest
  refine ⟨f'', ?_, hf'.branches.trans hf.branches, fun pre mid post => ?_⟩
  · rw [append_assoc, hrun, hrun']
  constructor
  · intro h
    obtain ⟨a, b, rfl, ha, hb⟩ := (hf'.branch pre mid post).mp h
    obtain ⟨a, c, rfl, ha, hc⟩ := (hf.branch pre a (b ++ post)).mp ha
    rw [← append_assoc] at ha
    exact ⟨a, c ++ b, append_assoc a c b, ha, c, b, rfl, hc, hb⟩
  · rintro ⟨a, b, rfl, ha, c, d, rfl, hc, hd⟩
    rw [append_assoc] at ha
    apply (hf'.branch pre (a ++ (c ++ d)) post).mpr
    refine ⟨a ++ c, d, (append_assoc a c d).symm, ?_, hd⟩
    exact (hf.branch pre (a ++ c) (d ++ post)).mpr ⟨a, c, rfl, ha, hc⟩

theorem Reads.cons {A : UInt8 → Prop} (hw : Reads w fun s => ∃ c, s = [c] ∧ A c)
    (hv : Reads v Q) : Reads (w ++ v) fun s => ∃ c t, s = c :: t ∧ A c ∧ Q t := by
  apply (hw.append hv).iff
  intro s
  constructor
  · rintro ⟨a, t, rfl, ⟨c, rfl, hc⟩, ht⟩
    exact ⟨c, t, rfl, hc, ht⟩
  · rintro ⟨c, t, rfl, hc, ht⟩
    exact ⟨[c], t, rfl, ⟨c, rfl, hc⟩, ht⟩

theorem reads_push {r : Expr} (hrun : ∀ f outer rest, run ⟨.normal, f, outer⟩ (w ++ rest) =
      run ⟨.normal, f.push r, outer⟩ rest)
    (hr : ∀ pre mid post, Matches r pre mid post ↔ P mid) : Reads w P := by
  intro f outer rest
  refine ⟨f.push r, hrun f outer rest, rfl, fun pre mid post => ?_⟩
  rw [Frame.branch_push, matches_cat_iff]
  simp only [hr]

theorem reads_char {c : UInt8} (h : ∀ st, special st c = some (st.put (.char c))) :
    Reads [c] (· = [c]) := by
  apply reads_push (fun f outer rest => ?_) fun pre mid post => matches_char_iff
  have hstep : step ⟨.normal, f, outer⟩ c = some ⟨.normal, f.push (.char c), outer⟩ :=
    h ⟨.normal, f, outer⟩
  rw [singleton_append, run, hstep, Option.bind_some]

theorem reads_quoted (c : UInt8) : Reads [92, c] (· = [c]) :=
  reads_push (fun _ _ _ => rfl) fun _ _ _ => matches_char_iff

section Set

variable {neg : Bool} {c : UInt8} {l : List (UInt8 × UInt8)}

theorem run_set (hw : 93 ∉ w) (hl : ranges (c :: w) = some l)
    (hc : c ≠ if neg = true then 93 else 94) (f : Frame) (outer : List Frame) (rest : List UInt8) :
    run ⟨.normal, f, outer⟩ ((if neg = true then [91, 94] else [91]) ++ (c :: w ++ 93 :: rest)) =
      run ⟨.normal, f.push (.set neg l), outer⟩ rest := by
  have hbody (mode : Mode) (hmode : step ⟨mode, f, outer⟩ c = some ⟨.bracket neg [c], f, outer⟩) :
      run ⟨mode, f, outer⟩ (c :: w ++ 93 :: rest) =
        run ⟨.normal, f.push (.set neg l), outer⟩ rest := by
    rw [cons_append, run, hmode, Option.bind_some]
    exact run_bracket (cons_ne_nil c []) hw hl f outer rest
  cases neg with
  | true => exact hbody (.bracket true []) (if_neg fun h => hc h.1)
  | false => exact hbody .opened (congrArg some (congrArg (State.mk · f outer) (if_neg hc)))

theorem reads_set (hw : 93 ∉ w) (hl : ranges (c :: w) = some l)
    (hc : c ≠ if neg = true then 93 else 94) :
    Reads ((if neg = true then [91, 94] else [91]) ++ (c :: w ++ [93]))
      fun s => ∃ a, s = [a] ∧ (Listed l a ↔ neg = false) := by
  apply reads_push (fun f outer rest => ?_) fun pre mid post => matches_set_iff
  rw [append_assoc, append_assoc]
  exact run_set hw hl hc f outer rest

theorem reads_star_set (hw : 93 ∉ w) (hl : ranges (c :: w) = some l)
    (hc : c ≠ if neg = true then 93 else 94) :
    Reads ((if neg = true then [91, 94] else [91]) ++ (c :: w ++ [93, 42]))
      fun s => ∀ a ∈ s, Listed l a ↔ neg = false := by
  apply reads_push (fun f outer rest => ?_) fun pre mid post => matches_star_set_iff
  rw [append_assoc, append_assoc]
  exact run_set hw hl hc f outer (42 :: rest)

end Set

theorem Reads.branches (h : Reads w P) : ReadsBranches w P := by
  intro branches outer rest
  obtain ⟨f', hrun, hf⟩ := h ⟨branches, .empty, none⟩ outer rest
  refine ⟨f', hrun, fun pre mid post => ?_⟩
  rw [Frame.matches_close_iff, hf.branches, hf.branch]
  apply or_congr Iff.rfl
  constructor
  · rintro ⟨a, b, rfl, ha, hb⟩
    obtain rfl := matches_empty_iff.mp ha
    exact hb
  · intro hmid
    exact ⟨[], mid, rfl, .empty pre (mid ++ post), hmid⟩

theorem Reads.bar (hw : Reads w P) (hv : ReadsBranches v Q) :
    ReadsBranches (w ++ ([124] ++ v)) fun s => P s ∨ Q s := by
  intro branches outer rest
  obtain ⟨f, hrun, hf⟩ := hw.branches branches outer ([124] ++ v ++ rest)
  obtain ⟨f', hrun', hf'⟩ := hv (some f.close) outer rest
  refine ⟨f', ?_, fun pre mid post => ?_⟩
  · rw [append_assoc, hrun]
    exact hrun'
  · rw [hf', ← or_assoc, ← hf]
    simp

theorem ReadsBranches.group (h : ReadsBranches w P) : Reads ([40] ++ (w ++ [41])) P := by
  intro f outer rest
  obtain ⟨g, hrun, hg⟩ := h none (f :: outer) ([41] ++ rest)
  refine ⟨f.push g.close, ?_, rfl, fun pre mid post => ?_⟩
  · rw [append_assoc, append_assoc]
    exact hrun
  · rw [Frame.branch_push, matches_cat_iff]
    simp [hg]

theorem Reads.anchored (h : Reads w P) :
    ∃ r, read (94 :: w ++ [36]) = some r ∧ ∀ s, Accepts r s ↔ P s := by
  obtain ⟨f, hrun, hf⟩ := h (Frame.new.push .start) [] [36]
  have hread : read (94 :: w ++ [36]) = some (f.push .finish).close :=
    congrArg (Option.bind · _) hrun
  refine ⟨_, hread, fun s => ?_⟩
  have hclose : (f.push .finish).close = .cat f.branch .finish := by
    rw [Frame.close, Frame.branches_push, hf.branches]
    rfl
  have hstart (pre a post : List UInt8) :
      Matches (Frame.new.push .start).branch pre a post ↔ pre = [] ∧ a = [] := by
    rw [Frame.branch_push, matches_cat_iff]
    constructor
    · rintro ⟨b, c, rfl, hb, hc⟩
      obtain rfl := matches_empty_iff.mp hb
      rw [append_nil] at hc
      exact matches_start_iff.mp hc
    · rintro ⟨rfl, rfl⟩
      exact ⟨[], [], rfl, .empty [] post, .start post⟩
  rw [hclose]
  constructor
  · rintro ⟨pre, mid, post, rfl, hmatch⟩
    obtain ⟨a, b, rfl, ha, hb⟩ := matches_cat_iff.mp hmatch
    obtain ⟨rfl, rfl⟩ := matches_finish_iff.mp hb
    obtain ⟨c, d, rfl, hc, hd⟩ := (hf.branch pre a _).mp ha
    obtain ⟨rfl, rfl⟩ := (hstart pre c _).mp hc
    simpa using hd
  · intro hs
    refine ⟨[], s, [], (append_nil s).symm, matches_cat_iff.mpr ?_⟩
    refine ⟨s, [], (append_nil s).symm, ?_, .finish s⟩
    exact (hf.branch [] s []).mpr ⟨[], s, rfl, (hstart [] [] _).mpr ⟨rfl, rfl⟩, hs⟩

end Parts

end WvStreams.Lib.Ere
