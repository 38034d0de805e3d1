import Mathlib.Data.List.TakeWhile
import WvStreams.Lib.Ere

/-!
# Patterns for file names

A pattern has wildcards for characters that are not a slash, bracket expressions, alternatives in
braces, and characters that stand for themselves. In a bracket expression the first character
is listed whatever it is, and a `!` in front means those that are not listed. No bracket
expression is for a slash, unless negated ones are taken to be (`slash`).
-/

namespace WvStreams.Lib.FilePattern

open List

open Ere (Listed)

/-- What is between the brackets: a `!` if it is negated, and at least one character. -/
@[ext]
structure Bracket where
  neg : Bool
  first : UInt8
  rest : List UInt8
  closed : 93 ∉ rest
  slashless : 47 ∉ first :: rest
  positive : neg = false → first ≠ 33

namespace Bracket

def body (b : Bracket) : List UInt8 := b.first :: b.rest

def text (b : Bracket) : List UInt8 := (if b.neg = true then [33] else []) ++ b.body

theorem text_of_neg {b : Bracket} (h : b.neg = true) : b.text = 33 :: b.body := by
  rw [text, if_pos h]
  rfl

theorem text_of_pos {b : Bracket} (h : b.neg = false) : b.text = b.body := by
  rw [text, h]
  rfl

end Bracket

mutual

inductive Pattern where
  | nil
  | char (c : UInt8) (p : Pattern)
  | star (p : Pattern)
  | one (p : Pattern)
  | bracket (b : Bracket) (p : Pattern)
  | brace (a : Alternatives) (p : Pattern)

inductive Alternatives where
  | last (p : Pattern)
  | more (p : Pattern) (a : Alternatives)

end

def items : List UInt8 → List (UInt8 × UInt8)
  | [] => []
  | [a] => [(a, a)]
  | [a, b] => [(a, a), (b, b)]
  | a :: b :: c :: s => if b = 45 then (a, c) :: items s else (a, a) :: items (b :: c :: s)

def Lists (body : List UInt8) (c : UInt8) : Prop := Listed (items body) c

theorem items_eq {body : List UInt8} {l : List (UInt8 × UInt8)} (h : Ere.items body = some l) :
    items body = l := by
  induction body using items.induct generalizing l with
  | case1 | case2 a | case3 a b => exact Option.some.inj h
  | case4 a c s ih =>
    rw [Ere.items, if_pos rfl] at h
    split at h
    · obtain ⟨l', hl, rfl⟩ := Option.map_eq_some_iff.mp h
      rw [items, if_pos rfl, ih hl]
    · cases h
  | case5 a b c s hrange ih =>
    rw [Ere.items, if_neg hrange] at h
    obtain ⟨l', hl, rfl⟩ := Option.map_eq_some_iff.mp h
    rw [items, if_neg hrange, ih hl]

theorem lists_iff {body : List UInt8} {l : List (UInt8 × UInt8)} (h : Ere.ranges body = some l)
    (c : UInt8) : Lists body c ↔ Listed l c := by
  rw [Ere.ranges] at h
  split at h
  · cases h
  · rw [Lists, items_eq h]

def Bracket.Takes (slash : Bool) (b : Bracket) (c : UInt8) : Prop :=
  (Lists b.body c ↔ b.neg = false) ∧ (c = 47 → b.neg = true ∧ slash = true)

mutual

def Pattern.Matches (slash : Bool) : Pattern → List UInt8 → Prop
  | .nil, s => s = []
  | .char c p, s => ∃ t, s = c :: t ∧ p.Matches slash t
  | .star p, s => ∃ a t, s = a ++ t ∧ 47 ∉ a ∧ p.Matches slash t
  | .one p, s => ∃ c t, s = c :: t ∧ c ≠ 47 ∧ p.Matches slash t
  | .bracket b p, s => ∃ c t, s = c :: t ∧ b.Takes slash c ∧ p.Matches slash t
  | .brace a p, s => ∃ h t, s = h ++ t ∧ a.Matches slash h ∧ p.Matches slash t

def Alternatives.Matches (slash : Bool) : Alternatives → List UInt8 → Prop
  | .last p, s => p.Matches slash s
  | .more p a, s => p.Matches slash s ∨ a.Matches slash s

end

mutual

def Pattern.Brackets (P : Bracket → Prop) : Pattern → Prop
  | .nil => True
  | .char _ p => p.Brackets P
  | .star p => p.Brackets P
  | .one p => p.Brackets P
  | .bracket b p => P b ∧ p.Brackets P
  | .brace a p => a.Brackets P ∧ p.Brackets P

def Alternatives.Brackets (P : Bracket → Prop) : Alternatives → Prop
  | .last p => p.Brackets P
  | .more p a => p.Brackets P ∧ a.Brackets P

end

mutual

theorem Pattern.brackets_of_forall {P : Bracket → Prop} (h : ∀ b, P b) : (p : Pattern) →
    p.Brackets P
  | .nil => trivial
  | .char _ p => p.brackets_of_forall h
  | .star p => p.brackets_of_forall h
  | .one p => p.brackets_of_forall h
  | .bracket b p => ⟨h b, p.brackets_of_forall h⟩
  | .brace a p => ⟨a.brackets_of_forall h, p.brackets_of_forall h⟩

theorem Alternatives.brackets_of_forall {P : Bracket → Prop} (h : ∀ b, P b) :
    (a : Alternatives) → a.Brackets P
  | .last p => p.brackets_of_forall h
  | .more p a => ⟨p.brackets_of_forall h, a.brackets_of_forall h⟩

end

mutual

theorem Pattern.brackets_imp {P Q : Bracket → Prop} (h : ∀ b, P b → Q b) : (p : Pattern) →
    p.Brackets P → p.Brackets Q
  | .nil, hp => hp
  | .char _ p, hp => p.brackets_imp h hp
  | .star p, hp => p.brackets_imp h hp
  | .one p, hp => p.brackets_imp h hp
  | .bracket b p, hp => ⟨h b hp.1, p.brackets_imp h hp.2⟩
  | .brace a p, hp => ⟨a.brackets_imp h hp.1, p.brackets_imp h hp.2⟩

theorem Alternatives.brackets_imp {P Q : Bracket → Prop} (h : ∀ b, P b → Q b) :
    (a : Alternatives) → a.Brackets P → a.Brackets Q
  | .last p, hp => p.brackets_imp h hp
  | .more p a, hp => ⟨p.brackets_imp h hp.1, a.brackets_imp h hp.2⟩

end

section Takes

variable {slash slash' : Bool} {P : Bracket → Prop}

mutual

theorem Pattern.matches_imp (htakes : ∀ b, P b → ∀ c, b.Takes slash c → b.Takes slash' c) :
    (p : Pattern) → p.Brackets P → ∀ {s}, p.Matches slash s → p.Matches slash' s
  | .nil, _, _, h => h
  | .char _ p, hp, _, ⟨t, hs, h⟩ => ⟨t, hs, p.matches_imp htakes hp h⟩
  | .star p, hp, _, ⟨a, t, hs, ha, h⟩ => ⟨a, t, hs, ha, p.matches_imp htakes hp h⟩
  | .one p, hp, _, ⟨c, t, hs, hc, h⟩ => ⟨c, t, hs, hc, p.matches_imp htakes hp h⟩
  | .bracket b p, hp, _, ⟨c, t, hs, hc, h⟩ =>
    ⟨c, t, hs, htakes b hp.1 c hc, p.matches_imp htakes hp.2 h⟩
  | .brace a p, hp, _, ⟨x, t, hs, hx, h⟩ =>
    ⟨x, t, hs, a.matches_imp htakes hp.1 hx, p.matches_imp htakes hp.2 h⟩

theorem Alternatives.matches_imp (htakes : ∀ b, P b → ∀ c, b.Takes slash c → b.Takes slash' c) :
    (a : Alternatives) → a.Brackets P → ∀ {s}, a.Matches slash s → a.Matches slash' s
  | .last p, hp, _, h => p.matches_imp htakes hp h
  | .more p a, hp, _, h =>
    Or.imp (fun h => p.matches_imp htakes hp.1 h) (fun h => a.matches_imp htakes hp.2 h) h

end

end Takes

variable {s : List UInt8}

theorem Pattern.matches_mono {p : Pattern} (h : p.Matches false s) : p.Matches true s := by
  have htakes (b : Bracket) (_ : True) (c : UInt8) (hc : b.Takes false c) : b.Takes true c :=
    ⟨hc.1, fun heq => Bool.noConfusion (hc.2 heq).2⟩
  exact p.matches_imp htakes (p.brackets_of_forall fun _ => trivial) h

theorem Pattern.matches_slashless {p : Pattern} (hp : p.Brackets fun b => b.neg = false)
    (h : p.Matches true s) : p.Matches false s := by
  have htakes (b : Bracket) (hb : b.neg = false) (c : UInt8) (hc : b.Takes true c) :
      b.Takes false c :=
    ⟨hc.1, fun heq => Bool.noConfusion (hb.symm.trans (hc.2 heq).1)⟩
  exact p.matches_imp htakes hp h

theorem not_mem_takeWhile (s : List UInt8) : 93 ∉ s.takeWhile (· ≠ 93) := fun h => by
  simpa using mem_takeWhile_imp h

theorem takeWhile_closing {w : List UInt8} (hw : 93 ∉ w) (tail : List UInt8) :
    (w ++ 93 :: tail).takeWhile (· ≠ 93) = w := by
  have hall : ∀ x ∈ w, decide (x ≠ 93) = true :=
    fun x hx => decide_eq_true (ne_of_mem_of_not_mem hx hw)
  rw [takeWhile_append_of_pos hall]
  simp

/-- A bracket expression behind the `!`, if there is one. A slash must not be listed as such. -/
def Bracket.parse (neg : Bool) (s : List UInt8) (hbang : neg = false → s.head? ≠ some 33) :
    Option Bracket :=
  match s, hbang with
  | [], _ => none
  | c :: rest, hbang =>
    let w := rest.takeWhile (· ≠ 93)
    if h : 93 ∈ rest ∧ 47 ∉ c :: w then
      some ⟨neg, c, w, not_mem_takeWhile rest, h.2, fun hneg heq => hbang hneg (congrArg some heq)⟩
    else none

def bracket (s : List UInt8) : Option Bracket :=
  if h : s.head? = some 33 then Bracket.parse true s.tail Bool.noConfusion
  else Bracket.parse false s fun _ => h

theorem Bracket.parse_eq_some_iff {neg : Bool} {hbang : neg = false → s.head? ≠ some 33}
    {b : Bracket} :
    Bracket.parse neg s hbang = some b ↔ b.neg = neg ∧ ∃ tail, s = b.body ++ 93 :: tail := by
  constructor
  · intro h
    cases s with
    | nil => cases h
    | cons c rest =>
      rw [Bracket.parse] at h
      split at h
      · rename_i hcond
        obtain rfl := Option.some.inj h
        obtain ⟨w, tail, rfl, hw⟩ := eq_append_cons_of_mem hcond.1
        refine ⟨rfl, tail, ?_⟩
        show c :: (w ++ 93 :: tail) = c :: (w ++ 93 :: tail).takeWhile (· ≠ 93) ++ 93 :: tail
        rw [takeWhile_closing hw]
        rfl
      · cases h
  · rintro ⟨rfl, tail, rfl⟩
    have htake := takeWhile_closing b.closed tail
    have hcond : 93 ∈ b.rest ++ 93 :: tail ∧
        47 ∉ b.first :: (b.rest ++ 93 :: tail).takeWhile (· ≠ 93) := by
      rw [htake]
      exact ⟨mem_append_right b.rest mem_cons_self, b.slashless⟩
    exact (dif_pos hcond).trans (congrArg some (Bracket.ext rfl rfl htake))

theorem bracket_eq_some_iff {b : Bracket} :
    bracket s = some b ↔ ∃ tail, s = b.text ++ 93 :: tail := by
  rw [bracket]
  split
  · rename_i hbang
    rw [Bracket.parse_eq_some_iff]
    constructor
    · rintro ⟨hneg, tail, htail⟩
      refine ⟨tail, ?_⟩
      rw [Bracket.text_of_neg hneg, ← cons_head?_tail hbang, htail]
      rfl
    · rintro ⟨tail, rfl⟩
      have hneg : b.neg = true := by
        apply eq_true_of_ne_false
        intro hneg
        rw [Bracket.text_of_pos hneg] at hbang
        exact b.positive hneg (Option.some.inj hbang)
      rw [Bracket.text_of_neg hneg]
      exact ⟨hneg, tail, rfl⟩
  · rename_i hbang
    rw [Bracket.parse_eq_some_iff]
    constructor
    · rintro ⟨hneg, tail, rfl⟩
      exact ⟨tail, by rw [Bracket.text_of_pos hneg]⟩
    · rintro ⟨tail, rfl⟩
      have hneg : b.neg = false := by
        apply eq_false_of_ne_true
        intro hneg
        rw [Bracket.text_of_neg hneg] at hbang
        exact hbang rfl
      exact ⟨hneg, tail, by rw [Bracket.text_of_pos hneg]⟩

mutual

/-- The pattern, up to a comma or a closing brace if it is in braces, and the number of its
characters. -/
def Pattern.parse (inner : Bool) (s : List UInt8) : Option (Pattern × Nat) :=
  match s with
  | [] => some (.nil, 0)
  | c :: rest =>
    if inner = true ∧ (c = 44 ∨ c = 125) then some (.nil, 0)
    else if c = 92 then
      match rest with
      | [] => none
      | d :: rest => (Pattern.parse inner rest).map fun (p, n) => (.char d p, n + 2)
    else if c = 91 then
      match bracket rest with
      | none => none
      | some b =>
        (Pattern.parse inner (rest.drop (b.text.length + 1))).map fun (p, n) =>
          (.bracket b p, b.text.length + 2 + n)
    else if c = 42 then (Pattern.parse inner rest).map fun (p, n) => (.star p, n + 1)
    else if c = 63 then (Pattern.parse inner rest).map fun (p, n) => (.one p, n + 1)
    else if c = 123 then
      match Alternatives.parse rest with
      | none => none
      | some (a, used) =>
        (Pattern.parse inner (rest.drop (used + 1))).map fun (p, n) => (.brace a p, used + 2 + n)
    else (Pattern.parse inner rest).map fun (p, n) => (.char c p, n + 1)
termination_by (s.length, 0)
decreasing_by
  all_goals
    simp only [length_drop, length_cons, Prod.lex_def]
    omega

/-- The alternatives, and the number of characters in front of the closing brace. -/
def Alternatives.parse (s : List UInt8) : Option (Alternatives × Nat) :=
  match Pattern.parse true s with
  | none => none
  | some (p, n) =>
    match _h : s.drop n with
    | 125 :: _ => some (.last p, n)
    | 44 :: rest => (Alternatives.parse rest).map fun (a, used) => (.more p a, n + 1 + used)
    | _ => none
termination_by (s.length, 1)
decreasing_by
  · simp [Prod.lex_def]
  · have hlength := congrArg length _h
    rw [length_drop, length_cons] at hlength
    simp only [Prod.lex_def]
    omega

end

def read (s : List UInt8) : Option Pattern := (Pattern.parse false s).map Prod.fst

end WvStreams.Lib.FilePattern
