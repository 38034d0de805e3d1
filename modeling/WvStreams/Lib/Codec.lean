import Mathlib.Data.List.Basic

/-!
# Reading what was written

A reader takes a value from the front of some bytes. `Returns` says exactly when it reads a value as
it was written, whatever comes behind it. One value after the other, a reader returns all of them if
and only if it returns each of them (`Returns.cons`).
-/

namespace WvStreams.Lib.Codec

variable {α β γ : Type}

/-- What is written as `bytes` is read as `x` if `P` holds, and only then. -/
structure Returns (read : List β → Option (α × List β)) (bytes : List β) (x : α) (P : Prop) :
    Prop where
  reads : P → ∀ rest, read (bytes ++ rest) = some (x, rest)
  only : ∀ {rest rest'}, read (bytes ++ rest) = some (x, rest') → P

def andThen (read : List β → Option (α × List β)) (more : List β → Option (List γ × List β))
    (f : α → γ) (s : List β) : Option (List γ × List β) :=
  (read s).bind fun (x, s) => (more s).map fun (l, s) => (f x :: l, s)

namespace Returns

variable {read : List β → Option (α × List β)} {bytes : List β} {x : α} {P : Prop}

theorem iff (h : Returns read bytes x P) : (∀ rest, read (bytes ++ rest) = some (x, rest)) ↔ P :=
  ⟨fun hall => h.only (hall []), h.reads⟩

theorem of_iff {Q : Prop} (h : Returns read bytes x P) (hiff : P ↔ Q) : Returns read bytes x Q :=
  ⟨fun hq => h.reads (hiff.mpr hq), fun hread => hiff.mp (h.only hread)⟩

theorem cons (h : Returns read bytes x P) {more : List β → Option (List γ × List β)}
    {bytes' : List β} {l : List γ} {Q : Prop} (h' : Returns more bytes' l Q) {f : α → γ}
    (hf : Function.Injective f) :
    Returns (andThen read more f) (bytes ++ bytes') (f x :: l) (P ∧ Q) := by
  constructor
  · rintro ⟨hp, hq⟩ rest
    rw [andThen, List.append_assoc, h.reads hp, Option.bind_some]
    dsimp only
    rw [h'.reads hq, Option.map_some]
  · intro rest rest' hread
    rw [andThen, List.append_assoc] at hread
    obtain ⟨⟨y, s⟩, hfirst, hmore⟩ := Option.bind_eq_some_iff.mp hread
    obtain ⟨⟨l', s'⟩, hrest, hpair⟩ := Option.map_eq_some_iff.mp hmore
    obtain ⟨hlist, rfl⟩ := Prod.mk.inj hpair
    obtain ⟨hhead, rfl⟩ := List.cons.inj hlist
    obtain rfl := hf hhead
    have hp := h.only hfirst
    have hs := (h.reads hp (bytes' ++ rest)).symm.trans hfirst
    obtain ⟨-, rfl⟩ := Prod.mk.inj (Option.some.inj hs)
    exact ⟨hp, h'.only hrest⟩

end Returns

end WvStreams.Lib.Codec
