import WvStreams.Lib.Columns
import WvStreams.Lib.Ring
import WvStreams.Strings.WvString

/-!
# `WvWordWrapEncoder`

The encoder keeps the blanks and the word at the end of its input in an array of `maxwidth` bytes,
and the column behind them, which it counts on behind the array's end. `Layout` is that text as
lists. `wraps_iff` says that the text is wrapped as it should be unless the column is too large
for an `int`, which no word brings about (`Fits`).
-/

namespace WvStreams

open Lib.Columns Lib.Ring List Option

structure WvWordWrapEncoder where
  maxwidth : Nat
  line : Str
  width : Nat
  curindex : Nat
  wordindex : Nat
  inword : Bool

namespace WvWordWrapEncoder

/-- The constructor, with the memory that `new` returns, which may have any bytes. -/
def new (line : Str) : WvWordWrapEncoder := ⟨line.length, line, 0, 0, 0, false⟩

/-- A sum of two numbers of type `int`; it is undefined if it overflows. -/
def addInt (a b : Nat) : Option Nat := if a + b < 2 ^ 31 then some (a + b) else none

def flushline (e : WvWordWrapEncoder) : WvWordWrapEncoder × Str :=
  ({ e with curindex := 0, wordindex := 0, inword := false }, e.line.take e.curindex)

/-- `line[curindex++] = ch`, which is undefined behind the end of the array. -/
def store (e : WvWordWrapEncoder) (ch : Byte) : Option WvWordWrapEncoder :=
  if e.curindex < e.line.length then
    some { e with line := e.line.set e.curindex ch, curindex := e.curindex + 1 }
  else none

/-- A space or a tab, with the column behind it. -/
def blank (e : WvWordWrapEncoder) (ch : Byte) (next : Nat → Option Nat) :
    Option (WvWordWrapEncoder × Str) :=
  let (e, out) := if e.inword then e.flushline else (e, [])
  (next e.width).bind fun width =>
  let e := { e with width }
  if e.width ≤ e.maxwidth then (e.store ch).map fun e => (e, out) else some (e, out)

def linebreak (e : WvWordWrapEncoder) : WvWordWrapEncoder × Str :=
  if !e.inword then
    -- discard trailing whitespace
    ({ e with curindex := 0, wordindex := 0, width := 0 }, [10])
  else if e.wordindex = 0 then
    -- insert hard line break
    let (e, out) := e.flushline
    ({ e with width := 0 }, out ++ [10])
  else
    -- insert soft line break
    let curindex := e.curindex - e.wordindex
    ({ e with
        curindex
        line := move e.line 0 e.wordindex curindex
        wordindex := 0
        width := curindex }, [10])

/-- A turn of the loop: `& ~7` takes the column back to a multiple of eight. -/
def turn (e : WvWordWrapEncoder) (ch : Byte) : Option (WvWordWrapEncoder × Str) :=
  if ch = 10 then
    let e := if !e.inword then { e with curindex := 0 } else e
    let (e, out) := e.flushline
    some ({ e with width := 0 }, out ++ [10])
  else if ch = 32 then e.blank ch fun width => addInt width 1
  else if ch = 9 then e.blank ch fun width => (addInt width 8).map fun width => width / 8 * 8
  else
    let (e, out) := if e.maxwidth ≤ e.width then e.linebreak else (e, [])
    let e := if !e.inword then { e with inword := true, wordindex := e.curindex } else e
    (addInt e.width 1).bind fun width =>
    (store { e with width } ch).map fun e => (e, out)

def loop (e : WvWordWrapEncoder) : Str → Option (WvWordWrapEncoder × Str)
  | [] => some (e, [])
  | ch :: inbuf =>
    (e.turn ch).bind fun (e, out) =>
    (e.loop inbuf).map fun (e, more) => (e, out ++ more)

def _encode (e : WvWordWrapEncoder) (inbuf : Str) (flush : Bool) :
    Option (WvWordWrapEncoder × Str) :=
  (e.loop inbuf).map fun (e, out) =>
    if flush then
      let (e, more) := e.flushline
      (e, out ++ more)
    else (e, out)

/-- `WvEncoder::encode`, of an encoder that is okay and not finished. -/
def encode (e : WvWordWrapEncoder) (inbuf : Str) (flush : Bool) :
    Option (WvWordWrapEncoder × Str) :=
  if inbuf ≠ [] ∨ flush then e._encode inbuf flush else some (e, [])

/-- Data in chunks, the last of which is flushed, and all that is written. -/
def flushChunks (e : WvWordWrapEncoder) : List Str → Str → Option (WvWordWrapEncoder × Str)
  | [], last => e.encode last true
  | chunk :: chunks, last =>
    (e.encode chunk false).bind fun (e, out) =>
    (e.flushChunks chunks last).map fun (e, more) => (e, out ++ more)

/-! ## Wrapped text -/

def white (b : Byte) : Bool := b = 32 || b = 9 || b = 10

def isblank (b : Byte) : Bool := b = 32 || b = 9

/-- A word of a text, with the text in front of it and behind it. -/
structure IsWord (pre word post : Str) : Prop where
  ne_nil : word ≠ []
  bytes : ∀ b ∈ word, white b = false
  before : ∀ b ∈ pre.getLast?, white b = true
  behind : ∀ b ∈ post.head?, white b = true

/-- The words of some text of at most `maxwidth` bytes are in the output, each at its place among
the other bytes. -/
def Unbroken (maxwidth : Nat) (input output : Str) : Prop :=
  ∀ pre word post, input = pre ++ word ++ post → IsWord pre word post → word.length ≤ maxwidth →
    ∃ pre' post', output = pre' ++ word ++ post' ∧ pre'.filter (!white ·) = pre.filter (!white ·)

/-- The bytes other than white space are the same, and newlines are only added among them. -/
structure Kept (input output : Str) : Prop where
  bytes : output.filter (!white ·) = input.filter (!white ·)
  newlines : (input.filter (!isblank ·)).Sublist (output.filter (!isblank ·))

structure Wrapped (maxwidth : Nat) (input output : Str) : Prop where
  narrow : ∀ line ∈ output.splitOn 10, Lib.Columns.width line ≤ maxwidth
  kept : Kept input output
  words : Unbroken maxwidth input output

/-- All calls come to an end, without a store outside the array, and the text is wrapped. -/
def Wraps (line : Str) (chunks : List Str) (last : Str) : Prop :=
  ∃ e output, (new line).flushChunks chunks last = some (e, output) ∧
    Wrapped line.length (chunks.flatten ++ last) output

/-- The column behind a word of `n` bytes that begins in the column `c`, or on a line of its own if
it has no room there. -/
def endColumn (maxwidth c n : Nat) : Nat :=
  if n = 0 then c
  else if c + n ≤ maxwidth then c + n
  else (n - 1) % maxwidth + 1

/-- The column behind each blank is an `int`, from the byte `n` of a word on that begins in the
column `c`. -/
def Fits (maxwidth : Nat) : Nat → Nat → Str → Prop
  | _, _, [] => True
  | c, n, b :: s =>
    if b = 10 then Fits maxwidth 0 0 s
    else if isblank b then
      advance (endColumn maxwidth c n) b < 2 ^ 31 ∧
        Fits maxwidth (advance (endColumn maxwidth c n) b) 0 s
    else Fits maxwidth c (n + 1) s

variable {b : Byte}

theorem white_of_isblank (h : isblank b = true) : white b = true := by
  rw [white, ← isblank, h, Bool.true_or]

theorem plain_of_white (h : white b = false) : b ≠ 9 ∧ b ≠ 10 := by
  constructor
  · rintro rfl
    cases h
  · rintro rfl
    cases h

namespace Kept

theorem refl (s : Str) : Kept s s := ⟨rfl, Sublist.refl _⟩

theorem trans {s t u : Str} (h : Kept s t) (h' : Kept t u) : Kept s u :=
  ⟨h'.bytes.trans h.bytes, h.newlines.trans h'.newlines⟩

theorem append {s t s' t' : Str} (h : Kept s t) (h' : Kept s' t') : Kept (s ++ s') (t ++ t') := by
  constructor
  · rw [filter_append, filter_append, h.bytes, h'.bytes]
  · rw [filter_append, filter_append]
    exact h.newlines.append h'.newlines

theorem blanks {s t : Str} (hs : ∀ b ∈ s, isblank b = true) (ht : ∀ b ∈ t, white b = true) :
    Kept s t := by
  have hnone {u : Str} {p : Byte → Bool} (hu : ∀ b ∈ u, p b = true) : u.filter (!p ·) = [] := by
    apply filter_eq_nil_iff.mpr
    intro b hb
    simp [hu b hb]
  constructor
  · rw [hnone ht, hnone fun b hb => white_of_isblank (hs b hb)]
  · rw [hnone hs]
    exact nil_sublist _

end Kept

/-! ## Words -/

theorem split_word {front w pre word post : Str}
    (hfront : ∀ b ∈ front.getLast?, white b = true) (hw : ∀ b ∈ w, white b = false)
    (hword : IsWord pre word post) (h : front ++ w = pre ++ word ++ post) :
    (∃ post', front = pre ++ word ++ post' ∧ IsWord pre word post') ∨ (pre = front ∧ word = w) := by
  have hclash {s t : Str} (hlast : ∀ b ∈ (s ++ t).getLast?, white b = true)
      (ht : ∀ b ∈ t, white b = false) : t = [] := by
    by_contra hne
    rw [getLast?_append_of_ne_nil _ hne, getLast?_eq_some_getLast hne] at hlast
    have hyes := hlast _ rfl
    rw [ht _ (getLast_mem hne)] at hyes
    cases hyes
  cases post with
  | nil =>
    right
    rw [append_nil] at h
    rcases append_eq_append_iff.mp h with ⟨t, rfl, rfl⟩ | ⟨t, rfl, rfl⟩
    · obtain rfl := hclash hword.before fun b hb => hw b (mem_append_left _ hb)
      exact ⟨append_nil _, rfl⟩
    · obtain rfl := hclash hfront fun b hb => hword.bytes b (mem_append_left _ hb)
      exact ⟨(append_nil _).symm, rfl⟩
  | cons b post =>
    have hb : white b = true := hword.behind b rfl
    rcases append_eq_append_iff.mp h with ⟨t, -, rfl⟩ | ⟨t, rfl, hpost⟩
    · have hnot := hw b (mem_append_right _ mem_cons_self)
      rw [hb] at hnot
      cases hnot
    · cases t with
      | nil =>
        have hnot := hw b (by rw [← nil_append w, ← hpost]; exact mem_cons_self)
        rw [hb] at hnot
        cases hnot
      | cons b' t =>
        obtain rfl := (cons.inj hpost).1
        exact Or.inl ⟨b :: t, rfl, hword.ne_nil, hword.bytes, hword.before, hword.behind⟩

namespace Unbroken

variable {maxwidth : Nat} {s out : Str}

theorem extend (h : Unbroken maxwidth s out) (more : Str) : Unbroken maxwidth s (out ++ more) := by
  intro pre word post hs hword hlen
  obtain ⟨pre', post', rfl, hpre⟩ := h pre word post hs hword hlen
  exact ⟨pre', post' ++ more, append_assoc _ _ _, hpre⟩

theorem white {b : Byte} (h : Unbroken maxwidth s out) (hb : white b = true) :
    Unbroken maxwidth (s ++ [b]) out := by
  intro pre word post hs hword hlen
  rcases eq_nil_or_concat post with rfl | ⟨post, b', rfl⟩
  · rw [append_nil] at hs
    have hlast := congrArg getLast? hs
    rw [getLast?_concat, getLast?_append_of_ne_nil _ hword.ne_nil] at hlast
    have hnot := hword.bytes b (mem_of_getLast? hlast.symm)
    rw [hb] at hnot
    cases hnot
  · rw [concat_eq_append, ← append_assoc] at hs
    obtain ⟨rfl, -⟩ := append_inj' hs rfl
    refine h pre word post rfl ⟨hword.ne_nil, hword.bytes, hword.before, ?_⟩ hlen
    intro c hc
    cases post with
    | nil => cases hc
    | cons c' post => exact hword.behind c hc

theorem word {done blanks w w' : Str} (h : Unbroken maxwidth s done)
    (hs : ∀ b ∈ s.getLast?, WvWordWrapEncoder.white b = true)
    (hw : ∀ b ∈ w, WvWordWrapEncoder.white b = false)
    (hkept : Kept (s ++ w) (done ++ blanks ++ w')) (hlen : w.length ≤ maxwidth → w' = w) :
    Unbroken maxwidth (s ++ w) (done ++ blanks ++ w') := by
  intro pre word post hsplit hword hshort
  rcases split_word hs hw hword hsplit with ⟨post', hfront, hword'⟩ | ⟨rfl, rfl⟩
  · rw [append_assoc]
    exact h.extend _ pre word post' hfront hword' hshort
  · obtain rfl := hlen hshort
    refine ⟨done ++ blanks, [], (append_nil _).symm, ?_⟩
    have hbytes := hkept.bytes
    rw [filter_append, filter_append pre] at hbytes
    exact append_cancel_right hbytes

end Unbroken

/-! ## Layouts -/

/-- What has been written, and what is in the array. -/
structure Layout where
  done : Str
  blanks : Str
  word : Str
  width : Nat

namespace Layout

def text (l : Layout) : Str := l.done ++ l.blanks ++ l.word

/-- A word is written when something else comes behind it. -/
def settle (l : Layout) : Layout :=
  if l.word = [] then l else ⟨l.text, [], [], l.width⟩

def newline (l : Layout) : Layout := ⟨l.settle.done ++ [10], [], [], 0⟩

def blank (maxwidth : Nat) (l : Layout) (b : Byte) : Layout :=
  { l.settle with
    blanks := if advance l.width b ≤ maxwidth then l.settle.blanks ++ [b] else l.settle.blanks
    width := advance l.width b }

def linebreak (l : Layout) : Layout :=
  if l.word = [] then ⟨l.done ++ [10], [], [], 0⟩
  else if l.blanks = [] then ⟨l.done ++ l.word ++ [10], [], [], 0⟩
  else ⟨l.done ++ [10], [], l.word, l.word.length⟩

def addbyte (l : Layout) (b : Byte) : Layout := { l with word := l.word ++ [b], width := l.width + 1 }

def byte (maxwidth : Nat) (l : Layout) (b : Byte) : Layout :=
  (if maxwidth ≤ l.width then l.linebreak else l).addbyte b

def step (maxwidth : Nat) (l : Layout) (b : Byte) : Layout :=
  if b = 10 then l.newline else if isblank b then l.blank maxwidth b else l.byte maxwidth b

/-- The layout of an input that ends in the word `w`, in front of which is the column `c`. -/
structure Laid (maxwidth : Nat) (front w : Str) (c : Nat) (l : Layout) : Prop where
  front_white : ∀ b ∈ front.getLast?, white b = true
  word_bytes : ∀ b ∈ w, white b = false
  blanks : ∀ b ∈ l.blanks, isblank b = true
  narrow : Narrow maxwidth 0 l.text
  column : l.width ≤ maxwidth → column 0 l.text = l.width
  kept : Kept (front ++ w) l.text
  words : Unbroken maxwidth front l.done
  suffix : l.word <:+ w
  width : l.width = endColumn maxwidth c w.length
  idle : w = [] → c ≤ maxwidth → (l.blanks = [] ↔ c = 0)
  /-- The word is on the line on which it begins. -/
  room : w ≠ [] → c + w.length ≤ maxwidth → l.word = w ∧ (l.blanks = [] ↔ c = 0)
  /-- The word has been moved to a line of its own, and its last bytes are on it. -/
  moved : w ≠ [] → maxwidth < c + w.length → l.blanks = [] ∧ l.word.length = l.width ∧
    (w.length ≤ maxwidth → l.word = w)

variable {maxwidth : Nat} {front w : Str} {c : Nat} {l : Layout}

theorem endColumn_pos {n : Nat} (hn : n ≠ 0) : 0 < endColumn maxwidth c n := by
  rw [endColumn, if_neg hn]
  split <;> omega

theorem Laid.word_eq_nil (h : Laid maxwidth front w c l) : l.word = [] ↔ w = [] := by
  constructor
  · intro hnil
    by_contra hw
    by_cases hroom : c + w.length ≤ maxwidth
    · exact hw ((h.room hw hroom).1 ▸ hnil)
    · have hlen := (h.moved hw (Nat.lt_of_not_le hroom)).2.1
      have hpos : 0 < endColumn maxwidth c w.length :=
        endColumn_pos fun hzero => hw (length_eq_zero_iff.mp hzero)
      rw [hnil, h.width, length_nil] at hlen
      omega
  · rintro rfl
    exact suffix_nil.mp h.suffix

theorem Laid.whole (h : Laid maxwidth front w c l) (hlen : w.length ≤ maxwidth) : l.word = w := by
  by_cases hw : w = []
  · rw [h.word_eq_nil.mpr hw, hw]
  · by_cases hroom : c + w.length ≤ maxwidth
    · exact (h.room hw hroom).1
    · exact (h.moved hw (Nat.lt_of_not_le hroom)).2.2 hlen

theorem settle_word (l : Layout) : l.settle.word = [] := by
  rw [settle]
  split
  · assumption
  · rfl

theorem settle_text (l : Layout) : l.settle.done ++ l.settle.blanks = l.text := by
  rw [settle]
  split
  · rename_i hnil
    rw [text, hnil, append_nil]
  · exact append_nil _

theorem Laid.settle_blanks (h : Laid maxwidth front w c l) :
    ∀ b ∈ l.settle.blanks, isblank b = true := by
  rw [settle]
  split
  · exact h.blanks
  · exact forall_mem_nil _

theorem Laid.settle_words (h : Laid maxwidth front w c l) :
    Unbroken maxwidth (front ++ w) l.settle.done := by
  rw [settle]
  split
  · rename_i hnil
    obtain rfl := h.word_eq_nil.mp hnil
    rw [append_nil]
    exact h.words
  · exact h.words.word h.front_white h.word_bytes h.kept h.whole

theorem Laid.width_le (h : Laid maxwidth front w c l) (hpos : 0 < maxwidth) (hw : w ≠ []) :
    l.width ≤ maxwidth := by
  have hmod := Nat.mod_lt (w.length - 1) hpos
  rw [h.width, endColumn, if_neg fun hzero => hw (length_eq_zero_iff.mp hzero)]
  split <;> omega

theorem Laid.start (maxwidth : Nat) : Laid maxwidth [] [] 0 ⟨[], [], [], 0⟩ where
  front_white := by rintro b ⟨⟩
  word_bytes := forall_mem_nil _
  blanks := forall_mem_nil _
  narrow := Nat.zero_le maxwidth
  column := fun _ => rfl
  kept := Kept.refl []
  words := by
    intro pre word post hnil hword
    obtain ⟨h, -⟩ := append_eq_nil_iff.mp hnil.symm
    exact absurd (append_eq_nil_iff.mp h).2 hword.ne_nil
  suffix := suffix_refl _
  width := rfl
  idle := fun _ _ => Iff.intro (fun _ => rfl) fun _ => rfl
  room := fun hne => absurd rfl hne
  moved := fun hne => absurd rfl hne

theorem Laid.newline (h : Laid maxwidth front w c l) :
    Laid maxwidth (front ++ w ++ [10]) [] 0 l.newline where
  front_white := by
    intro b hb
    rw [getLast?_concat] at hb
    obtain rfl := some.inj hb
    rfl
  word_bytes := forall_mem_nil _
  blanks := forall_mem_nil _
  narrow := by
    have hnarrow := h.narrow
    rw [← l.settle_text] at hnarrow
    show Narrow maxwidth 0 (l.settle.done ++ [10] ++ [] ++ [])
    rw [append_nil, append_nil]
    exact narrow_concat (narrow_append.mp hnarrow).1
  column := by
    intro _
    show Lib.Columns.column 0 (l.settle.done ++ [10] ++ [] ++ []) = 0
    rw [append_nil, append_nil, column_concat_newline]
  kept := by
    have hkept := h.kept
    rw [← l.settle_text] at hkept
    have hdrop := (Kept.refl l.settle.done).append
      (Kept.blanks h.settle_blanks (t := []) (forall_mem_nil _))
    rw [append_nil] at hdrop
    show Kept _ (l.settle.done ++ [10] ++ [] ++ [])
    rw [append_nil, append_nil, append_nil]
    exact (hkept.trans hdrop).append (Kept.refl [10])
  words := (h.settle_words.white rfl).extend [10]
  suffix := suffix_refl _
  width := rfl
  idle := fun _ _ => Iff.intro (fun _ => rfl) fun _ => rfl
  room := fun hne => absurd rfl hne
  moved := fun hne => absurd rfl hne

theorem Laid.blank (h : Laid maxwidth front w c l) {b : Byte} (hb : isblank b = true) :
    Laid maxwidth (front ++ w ++ [b]) [] (advance (endColumn maxwidth c w.length) b)
      (l.blank maxwidth b) := by
  have hfront : ∀ b' ∈ (front ++ w ++ [b]).getLast?, white b' = true := by
    intro b' hb'
    rw [getLast?_concat] at hb'
    obtain rfl := some.inj hb'
    exact white_of_isblank hb
  have hwords := h.settle_words.white (white_of_isblank hb)
  have hlt := lt_advance l.width b
  rw [← h.width, Layout.blank, l.settle_word]
  by_cases hle : advance l.width b ≤ maxwidth
  · have hnewline : b ≠ 10 := by
      rintro rfl
      cases hb
    have hcolumn := h.column (by omega)
    have htext : (⟨l.settle.done, l.settle.blanks ++ [b], [], advance l.width b⟩ : Layout).text =
        l.text ++ [b] := by
      rw [← l.settle_text, text, append_nil, append_assoc]
    rw [if_pos hle]
    refine ⟨hfront, forall_mem_nil _, ?_, ?_, ?_, ?_, hwords, suffix_refl _, rfl, ?_,
      fun hne => absurd rfl hne, fun hne => absurd rfl hne⟩
    · rw [forall_mem_append]
      exact ⟨h.settle_blanks, forall_mem_singleton.mpr hb⟩
    · rw [htext, narrow_append, hcolumn, Narrow, if_neg hnewline]
      exact ⟨h.narrow, hle⟩
    · intro _
      rw [htext, column_append, hcolumn, Lib.Columns.column, if_neg hnewline]
      rfl
    · rw [htext, append_nil]
      exact h.kept.append (Kept.refl [b])
    · intro _ _
      exact iff_of_false (by simp) (by omega)
  · have htext : (⟨l.settle.done, l.settle.blanks, [], advance l.width b⟩ : Layout).text =
        l.text := by
      rw [← l.settle_text, text, append_nil]
    rw [if_neg hle]
    refine ⟨hfront, forall_mem_nil _, h.settle_blanks, htext ▸ h.narrow,
      fun hbelow => absurd hbelow hle, ?_, hwords, suffix_refl _, rfl,
      fun _ hbelow => absurd hbelow hle, fun hne => absurd rfl hne, fun hne => absurd rfl hne⟩
    have hdrop := h.kept.append
      (Kept.blanks (forall_mem_singleton.mpr hb) (forall_mem_nil _))
    rw [htext, append_nil]
    rwa [append_nil] at hdrop

theorem endColumn_fits {n : Nat} (h : c + (n + 1) ≤ maxwidth) :
    endColumn maxwidth c (n + 1) = c + (n + 1) := by
  rw [endColumn, if_neg (Nat.succ_ne_zero n), if_pos h]

theorem endColumn_moved {n : Nat} (h : maxwidth < c + (n + 1)) :
    endColumn maxwidth c (n + 1) = n % maxwidth + 1 := by
  rw [endColumn, if_neg (Nat.succ_ne_zero n), if_neg (Nat.not_le_of_lt h), Nat.add_sub_cancel]

theorem endColumn_succ {n : Nat} (h : endColumn maxwidth c n < maxwidth) :
    endColumn maxwidth c (n + 1) = endColumn maxwidth c n + 1 := by
  cases n with
  | zero =>
    have hlt : c < maxwidth := h
    exact endColumn_fits hlt
  | succ n =>
    by_cases hroom : c + (n + 1) ≤ maxwidth
    · rw [endColumn_fits hroom] at h ⊢
      exact endColumn_fits h
    · have hmoved := Nat.lt_of_not_le hroom
      rw [endColumn_moved hmoved] at h ⊢
      rw [endColumn_moved (Nat.lt_succ_of_lt hmoved), ← Nat.mod_add_mod, Nat.mod_eq_of_lt h]

theorem Laid.byte_fits (h : Laid maxwidth front w c l) {b : Byte} (hb : white b = false)
    (hwidth : l.width < maxwidth) : Laid maxwidth front (w ++ [b]) c (l.addbyte b) := by
  obtain ⟨htab, hnewline⟩ := plain_of_white hb
  have hcolumn := h.column hwidth.le
  have htext : (l.addbyte b).text = l.text ++ [b] := (append_assoc _ _ _).symm
  have hadded : (l.addbyte b).word = l.word ++ [b] := rfl
  refine ⟨h.front_white, ?_, h.blanks, ?_, ?_, ?_, h.words, ?_, ?_, ?_, ?_, ?_⟩
  · rw [forall_mem_append]
    exact ⟨h.word_bytes, forall_mem_singleton.mpr hb⟩
  · rw [htext, narrow_append, hcolumn, Narrow, if_neg hnewline, advance_of_ne htab]
    exact ⟨h.narrow, hwidth⟩
  · intro _
    rw [htext, column_append, hcolumn, Lib.Columns.column, if_neg hnewline, advance_of_ne htab]
    rfl
  · rw [htext, ← append_assoc]
    exact h.kept.append (Kept.refl [b])
  · obtain ⟨cut, hcut⟩ := h.suffix
    exact ⟨cut, by rw [hadded, ← append_assoc, hcut]⟩
  · show l.width + 1 = _
    rw [length_append, length_singleton, h.width, endColumn_succ (h.width ▸ hwidth)]
  · intro hnil
    exact absurd hnil (by simp)
  · intro _ hroom
    rw [length_append, length_singleton] at hroom
    by_cases hw : w = []
    · rw [hadded, h.word_eq_nil.mpr hw, hw]
      exact ⟨rfl, h.idle hw (by omega)⟩
    · obtain ⟨hword, hblanks⟩ := h.room hw (by omega)
      exact ⟨congrArg (· ++ [b]) hword, hblanks⟩
  · intro _ hmoved
    rw [length_append, length_singleton] at hmoved
    have hw : w ≠ [] := by
      rintro rfl
      have hc : l.width = c := h.width
      rw [length_nil] at hmoved
      omega
    have hover : maxwidth < c + w.length := by
      by_contra hroom
      have hwidth' := h.width
      rw [endColumn, if_neg (by simpa using hw), if_pos (Nat.le_of_not_lt hroom)] at hwidth'
      omega
    obtain ⟨hblanks, hlen, hword⟩ := h.moved hw hover
    refine ⟨hblanks, ?_, fun hshort => ?_⟩
    · rw [hadded, length_append, hlen]
      rfl
    · rw [length_append] at hshort
      rw [hadded, hword (by omega)]

theorem Laid.byte_moves (h : Laid maxwidth front w c l) {b : Byte} (hb : white b = false)
    {done : Str} (part : Str) (hnarrow : Narrow maxwidth 0 done) (hlen : part.length < maxwidth)
    (hkept : Kept (front ++ w) (done ++ [10] ++ part))
    (hwords : Unbroken maxwidth front (done ++ [10])) (hsuffix : part <:+ w)
    (hmoved : maxwidth < c + (w.length + 1)) (hpart : part.length = w.length % maxwidth)
    (hshort : w.length < maxwidth → part = w) :
    Laid maxwidth front (w ++ [b]) c ⟨done ++ [10], [], part ++ [b], part.length + 1⟩ := by
  have hbytes : ∀ b' ∈ w ++ [b], white b' = false := by
    rw [forall_mem_append]
    exact ⟨h.word_bytes, forall_mem_singleton.mpr hb⟩
  obtain ⟨cut, hcut⟩ := hsuffix
  have hword : part ++ [b] <:+ w ++ [b] := ⟨cut, by rw [← append_assoc, hcut]⟩
  have hplain : ∀ b' ∈ part ++ [b], b' ≠ 9 ∧ b' ≠ 10 := fun b' hb' =>
    plain_of_white (hbytes b' (hword.mem hb'))
  have htext : (⟨done ++ [10], [], part ++ [b], part.length + 1⟩ : Layout).text =
      done ++ [10] ++ (part ++ [b]) := by
    rw [text, append_nil]
  have hsum : (part ++ [b]).length = part.length + 1 := length_append
  refine ⟨h.front_white, hbytes, forall_mem_nil _, ?_, ?_, ?_, hwords, hword, ?_, ?_, ?_, ?_⟩
  · rw [htext, narrow_append, column_concat_newline, narrow_plain hplain, Nat.zero_add, hsum]
    exact ⟨narrow_concat hnarrow, hlen⟩
  · intro _
    rw [htext, column_append, column_concat_newline, column_plain hplain, Nat.zero_add, hsum]
  · rw [htext, ← append_assoc, ← append_assoc]
    exact hkept.append (Kept.refl [b])
  · rw [length_append, length_singleton, endColumn_moved hmoved, hpart]
  · intro hnil
    exact absurd hnil (by simp)
  · intro _ hroom
    rw [length_append, length_singleton] at hroom
    omega
  · intro _ _
    refine ⟨rfl, hsum, fun hle => ?_⟩
    rw [length_append, length_singleton] at hle
    rw [hshort hle]

theorem Laid.full (h : Laid maxwidth front w c l) (hpos : 0 < maxwidth)
    (hwidth : maxwidth ≤ l.width) (hw : w ≠ []) :
    (c + w.length = maxwidth ∧ l.word = w ∧ (l.blanks = [] ↔ c = 0)) ∨
      (maxwidth < c + w.length ∧ w.length % maxwidth = 0 ∧ l.blanks = [] ∧
        maxwidth ≤ w.length) := by
  obtain ⟨n, hn⟩ : ∃ n, w.length = n + 1 :=
    Nat.exists_eq_succ_of_ne_zero fun hzero => hw (length_eq_zero_iff.mp hzero)
  have hcolumn := h.width
  rw [hn] at hcolumn
  by_cases hroom : c + w.length ≤ maxwidth
  · rw [endColumn_fits (by omega)] at hcolumn
    exact Or.inl ⟨by omega, h.room hw hroom⟩
  · have hmoved := Nat.lt_of_not_le hroom
    rw [endColumn_moved (by omega)] at hcolumn
    have hmod := Nat.mod_lt n hpos
    have hlast : n % maxwidth + 1 = maxwidth := by omega
    have hle := Nat.mod_le n maxwidth
    refine Or.inr ⟨hmoved, ?_, (h.moved hw hmoved).1, by omega⟩
    rw [hn, ← Nat.mod_add_mod, hlast, Nat.mod_self]

theorem Laid.byte (h : Laid maxwidth front w c l) (hpos : 0 < maxwidth) {b : Byte}
    (hb : white b = false) : Laid maxwidth front (w ++ [b]) c (l.byte maxwidth b) := by
  rw [Layout.byte]
  by_cases hwidth : maxwidth ≤ l.width
  · rw [if_pos hwidth, linebreak]
    have hnarrow : Narrow maxwidth 0 (l.done ++ l.blanks ++ l.word) := h.narrow
    have hkept : Kept (front ++ w) (l.done ++ l.blanks ++ l.word) := h.kept
    have hbreak : Kept l.blanks [10] := Kept.blanks h.blanks (forall_mem_singleton.mpr rfl)
    have hmoved := hkept.trans (((Kept.refl l.done).append hbreak).append (Kept.refl l.word))
    have hdone := (narrow_append.mp (narrow_append.mp hnarrow).1).1
    by_cases hword : l.word = []
    · rw [if_pos hword]
      -- discard trailing whitespace
      obtain rfl := h.word_eq_nil.mp hword
      have hc : l.width = c := h.width
      rw [hword] at hmoved
      exact h.byte_moves hb [] hdone hpos hmoved (h.words.extend [10])
        (suffix_refl _) (by rw [length_nil]; omega) (Nat.zero_mod _).symm fun _ => rfl
    · rw [if_neg hword]
      have hw : w ≠ [] := fun hnil => hword (h.word_eq_nil.mpr hnil)
      have hfull := h.full hpos hwidth hw
      by_cases hblanks : l.blanks = []
      · rw [if_pos hblanks]
        -- insert hard line break
        rw [hblanks, append_nil] at hnarrow hkept
        have hwhole : maxwidth ≤ w.length ∧ w.length % maxwidth = 0 := by
          rcases hfull with ⟨hsum, -, hzero⟩ | ⟨-, hmod, -, hle⟩
          · rw [hzero.mp hblanks, Nat.zero_add] at hsum
            rw [hsum]
            exact ⟨Nat.le_refl _, Nat.mod_self _⟩
          · exact ⟨hle, hmod⟩
        have hadded := hkept.append (Kept.blanks (s := []) (t := [10]) (forall_mem_nil _)
          (forall_mem_singleton.mpr rfl))
        rw [append_nil] at hadded
        refine h.byte_moves hb [] hnarrow hpos ?_ ?_ nil_suffix (by omega)
          hwhole.2.symm fun hlt => absurd hwhole.1 (Nat.not_le_of_lt hlt)
        · rwa [append_nil]
        · rw [append_assoc]
          exact h.words.extend _
      · rw [if_neg hblanks]
        -- insert soft line break
        obtain ⟨hsum, rfl, hzero⟩ := hfull.resolve_right fun hover => hblanks hover.2.2.1
        have hc : c ≠ 0 := fun hnil => hblanks (hzero.mpr hnil)
        have hlt : l.word.length < maxwidth := by omega
        exact h.byte_moves hb l.word hdone hlt hmoved (h.words.extend [10])
          (suffix_refl _) (by omega) (Nat.mod_eq_of_lt hlt).symm fun _ => rfl
  · rw [if_neg hwidth]
    exact h.byte_fits hb (Nat.lt_of_not_le hwidth)

theorem Laid.wrapped (h : Laid maxwidth front w c l) : Wrapped maxwidth (front ++ w) l.text := by
  refine ⟨narrow_iff.mp h.narrow, h.kept, ?_⟩
  exact h.words.word h.front_white h.word_bytes h.kept h.whole

theorem Laid.length_le (h : Laid maxwidth front w c l) (hwidth : l.width ≤ maxwidth) :
    (l.blanks ++ l.word).length ≤ l.width := by
  have hcolumn := h.column hwidth
  rw [text, append_assoc, column_append] at hcolumn
  have hplain : ∀ b ∈ l.blanks ++ l.word, b ≠ 10 := by
    intro b hb
    rcases mem_append.mp hb with hblank | hword
    · rintro rfl
      cases h.blanks _ hblank
    · exact (plain_of_white (h.word_bytes b (h.suffix.mem hword))).2
  have hle := add_length_le_column (c := Lib.Columns.column 0 l.done) hplain
  omega

end Layout

/-! ## The array -/

/-- The encoder has the layout in its array. -/
structure Rep (e : WvWordWrapEncoder) (l : Layout) : Prop where
  size : e.line.length = e.maxwidth
  line : e.line.take e.curindex = l.blanks ++ l.word
  curindex : e.curindex = (l.blanks ++ l.word).length
  inword : e.inword = true ↔ l.word ≠ []
  wordindex : l.word ≠ [] → e.wordindex = l.blanks.length
  width : e.width = l.width

variable {e : WvWordWrapEncoder} {l : Layout}

theorem take_set {line : Str} {i : Nat} (h : i < line.length) (b : Byte) :
    (line.set i b).take (i + 1) = line.take i ++ [b] := by
  rw [set_eq_take_append_cons_drop, if_pos h, ← singleton_append, ← append_assoc]
  exact take_left' (by rw [length_append, length_take]; simp; omega)

theorem Rep.settle (h : Rep e l) :
    ∃ e' out, (if e.inword then e.flushline else (e, [])) = (e', out) ∧ Rep e' l.settle ∧
      e'.maxwidth = e.maxwidth ∧ l.settle.done = l.done ++ out := by
  by_cases hword : l.word = []
  · have hnot : ¬ e.inword = true := fun hin => h.inword.mp hin hword
    refine ⟨e, [], if_neg hnot, ?_, rfl, ?_⟩
    · rwa [Layout.settle, if_pos hword]
    · rw [Layout.settle, if_pos hword, append_nil]
  · refine ⟨_, _, if_pos (h.inword.mpr hword), ?_, rfl, ?_⟩
    · rw [Layout.settle, if_neg hword]
      exact ⟨h.size, rfl, rfl, by simp, fun hne => absurd rfl hne, h.width⟩
    · rw [Layout.settle, if_neg hword, h.line, ← append_assoc]
      rfl

theorem Rep.blank {m : Nat} {next : Nat → Option Nat} (h : Rep e l) (hm : e.maxwidth = m)
    (hroom : advance l.width b ≤ m → (l.blanks ++ l.word).length < m)
    (hnext : next l.width = some (advance l.width b)) :
    ∃ e' out, e.blank b next = some (e', out) ∧ Rep e' (l.blank m b) ∧ e'.maxwidth = m ∧
      (l.blank m b).done = l.done ++ out := by
  obtain ⟨e₁, out, hflush, hrep, hm₁, hdone⟩ := h.settle
  have hword := l.settle_word
  have hwidth : e₁.width = l.width := by
    rw [hrep.width, Layout.settle]
    split <;> rfl
  have hpending : (l.settle.blanks ++ l.settle.word).length ≤ (l.blanks ++ l.word).length := by
    rw [Layout.settle]
    split
    · exact Nat.le_refl _
    · exact Nat.zero_le _
  rw [WvWordWrapEncoder.blank, hflush]
  dsimp only
  rw [hwidth, hnext, bind_some]
  obtain rfl : e₁.maxwidth = m := hm₁.trans hm
  rw [Layout.blank]
  by_cases hle : advance l.width b ≤ e₁.maxwidth
  · have hlt : e₁.curindex < e₁.line.length := by
      rw [hrep.curindex, hrep.size]
      exact hpending.trans_lt (hroom hle)
    have hline := hrep.line
    have hcurindex := hrep.curindex
    rw [hword, append_nil] at hline hcurindex
    rw [if_pos hle, if_pos hle, store, if_pos hlt]
    refine ⟨_, out, rfl, ⟨?_, ?_, ?_, hrep.inword, fun hne => absurd hword hne, rfl⟩, rfl, hdone⟩
    · rw [length_set]
      exact hrep.size
    · show (e₁.line.set e₁.curindex b).take (e₁.curindex + 1) = _
      rw [take_set hlt, hline, hword, append_nil]
    · rw [hword, append_nil, length_append, hcurindex]
      rfl
  · rw [if_neg hle, if_neg hle]
    exact ⟨_, out, rfl, ⟨hrep.size, hrep.line, hrep.curindex, hrep.inword, hrep.wordindex, rfl⟩,
      rfl, hdone⟩

theorem Rep.linebreak (h : Rep e l) :
    ∃ e' out, e.linebreak = (e', out) ∧ Rep e' l.linebreak ∧ e'.maxwidth = e.maxwidth ∧
      l.linebreak.done = l.done ++ out := by
  rw [WvWordWrapEncoder.linebreak, Layout.linebreak]
  by_cases hword : l.word = []
  · have hnot : e.inword = false := by
      rw [Bool.eq_false_iff]
      exact fun hin => h.inword.mp hin hword
    rw [if_pos hword, if_pos (by rw [hnot]; rfl)]
    refine ⟨_, _, rfl, ⟨h.size, rfl, rfl, ?_, fun hne => absurd rfl hne, rfl⟩, rfl, rfl⟩
    exact iff_of_false (by simp [hnot]) fun hne => hne rfl
  · have hin := h.inword.mpr hword
    have hindex := h.wordindex hword
    rw [if_neg hword, if_neg (by rw [hin]; exact Bool.false_ne_true)]
    by_cases hblanks : l.blanks = []
    · have hzero : e.wordindex = 0 := by
        rw [hindex, hblanks, length_nil]
      have hline := h.line
      rw [hblanks, nil_append] at hline
      rw [if_pos hblanks, if_pos hzero, flushline]
      rw [hline]
      refine ⟨_, _, rfl, ⟨h.size, rfl, rfl, ?_, fun hne => absurd rfl hne, rfl⟩, rfl,
        append_assoc _ _ _⟩
      exact iff_of_false Bool.false_ne_true fun hne => hne rfl
    · have hpos : e.wordindex ≠ 0 := by
        rw [hindex]
        exact (length_pos_iff.mpr hblanks).ne'
      have hlen : e.curindex - e.wordindex = l.word.length := by
        rw [h.curindex, hindex, length_append]
        omega
      have hslice : slice e.line e.wordindex l.word.length = l.word := by
        have hdrop := congrArg (drop e.wordindex) h.line
        rwa [drop_take, hlen, hindex, drop_left, ← hindex] at hdrop
      have hbound : 0 + l.word.length ≤ e.line.length := by
        have htake := congrArg length h.line
        rw [length_take, length_append] at htake
        omega
      rw [if_neg hblanks, if_neg hpos, hlen]
      dsimp only
      rw [move, hslice]
      refine ⟨_, _, rfl, ⟨?_, ?_, rfl, h.inword, fun _ => rfl, rfl⟩, rfl, rfl⟩
      · rw [length_blit hbound]
        exact h.size
      · show (blit e.line 0 l.word).take l.word.length = l.word
        rw [blit, take_zero, nil_append, take_left]

theorem Rep.addbyte (h : Rep e l) (hlt : e.curindex < e.line.length) :
    ∃ e', store { (if !e.inword then { e with inword := true, wordindex := e.curindex } else e)
        with width := l.width + 1 } b = some e' ∧
      Rep e' (l.addbyte b) ∧ e'.maxwidth = e.maxwidth := by
  have hline : (e.line.set e.curindex b).take (e.curindex + 1) =
      l.blanks ++ (l.word ++ [b]) := by
    rw [take_set hlt, h.line, append_assoc]
  have hcurindex : e.curindex + 1 = (l.blanks ++ (l.word ++ [b])).length := by
    rw [h.curindex, ← append_assoc]
    exact (@length_append _ (l.blanks ++ l.word) [b]).symm
  have hne : l.word ++ [b] ≠ [] := by simp
  have hsize : (e.line.set e.curindex b).length = e.maxwidth := by
    rw [length_set, h.size]
  by_cases hin : e.inword = true
  · rw [if_neg (by simp [hin]), store, if_pos hlt]
    exact ⟨_, rfl, ⟨hsize, hline, hcurindex, iff_of_true hin hne,
      fun _ => h.wordindex (h.inword.mp hin), rfl⟩, rfl⟩
  · have hword : l.word = [] := by
      by_contra hword
      exact hin (h.inword.mpr hword)
    have hindex := h.curindex
    rw [hword, append_nil] at hindex
    rw [if_pos (by simp [hin]), store, if_pos hlt]
    exact ⟨_, rfl, ⟨hsize, hline, hcurindex, iff_of_true rfl hne, fun _ => hindex, rfl⟩, rfl⟩

/-! ## The loop -/

theorem turn_isblank (e : WvWordWrapEncoder) (hb : isblank b = true) :
    ∃ next, e.turn b = e.blank b next ∧ ∀ width, next width =
      if advance width b < 2 ^ 31 then some (advance width b) else none := by
  rw [isblank, Bool.or_eq_true, decide_eq_true_iff, decide_eq_true_iff] at hb
  rcases hb with rfl | rfl
  · exact ⟨_, rfl, fun width => rfl⟩
  · refine ⟨fun width => (addInt width 8).map fun width => width / 8 * 8, rfl, fun width => ?_⟩
    have hnext : (width + 8) / 8 * 8 = advance width 9 := by
      rw [advance, if_pos rfl]
      omega
    show (addInt width 8).map _ = _
    rw [addInt, ← hnext]
    by_cases hlt : width + 8 < 2 ^ 31
    · rw [if_pos hlt, if_pos (by omega)]
      rfl
    · rw [if_neg hlt, if_neg (by omega)]
      rfl

variable {maxwidth : Nat} {front w : Str} {c : Nat}

theorem turn_newline (h : Rep e l) :
    ∃ e' out, e.turn 10 = some (e', out) ∧ Rep e' l.newline ∧ e'.maxwidth = e.maxwidth ∧
      l.newline.done = l.done ++ out := by
  have hempty : Rep { e with curindex := 0, wordindex := 0, inword := false, width := 0 }
      l.newline :=
    ⟨h.size, rfl, rfl, iff_of_false Bool.false_ne_true fun hne => hne rfl,
      fun hne => absurd rfl hne, rfl⟩
  rw [turn, if_pos rfl]
  by_cases hword : l.word = []
  · have hnot : e.inword = false := by
      rw [Bool.eq_false_iff]
      exact fun hin => h.inword.mp hin hword
    rw [if_pos (by rw [hnot]; rfl)]
    refine ⟨_, _, rfl, hempty, rfl, ?_⟩
    rw [Layout.newline, Layout.settle, if_pos hword]
    rfl
  · rw [if_neg (by rw [h.inword.mpr hword]; exact Bool.false_ne_true)]
    refine ⟨_, _, rfl, hempty, rfl, ?_⟩
    show l.settle.done ++ [10] = l.done ++ (e.line.take e.curindex ++ [10])
    rw [Layout.settle, if_neg hword, h.line, Layout.text]
    simp only [append_assoc]

theorem turn_byte (hlaid : Layout.Laid maxwidth front w c l) (h : Rep e l)
    (hm : e.maxwidth = maxwidth) (hpos : 0 < maxwidth) (hint : maxwidth < 2 ^ 31)
    (hb : white b = false) :
    ∃ e' out, e.turn b = some (e', out) ∧ Rep e' (l.byte maxwidth b) ∧ e'.maxwidth = maxwidth ∧
      (l.byte maxwidth b).done = l.done ++ out := by
  obtain ⟨htab, hnewline⟩ := plain_of_white hb
  have hspace : b ≠ 32 := by
    rintro rfl
    cases hb
  have hbyte := hlaid.byte hpos hb
  have hready : ∃ e₁ out, (if e.maxwidth ≤ e.width then e.linebreak else (e, [])) = (e₁, out) ∧
      Rep e₁ (if maxwidth ≤ l.width then l.linebreak else l) ∧ e₁.maxwidth = maxwidth ∧
      (if maxwidth ≤ l.width then l.linebreak else l).done = l.done ++ out := by
    rw [hm, h.width]
    by_cases hfull : maxwidth ≤ l.width
    · rw [if_pos hfull, if_pos hfull]
      obtain ⟨e₁, out, hbreak, hrep, hm₁, hdone⟩ := h.linebreak
      exact ⟨e₁, out, hbreak, hrep, hm₁.trans hm, hdone⟩
    · rw [if_neg hfull, if_neg hfull]
      exact ⟨e, [], rfl, h, hm, (append_nil _).symm⟩
  have hle := hbyte.width_le hpos (by simp)
  have hlen := hbyte.length_le hle
  rw [Layout.byte] at hle hlen ⊢
  obtain ⟨e₁, out, hbreak, hrep, hm₁, hdone⟩ := hready
  generalize (if maxwidth ≤ l.width then l.linebreak else l) = l₁ at hle hlen hrep hdone ⊢
  have hle' : l₁.width + 1 ≤ maxwidth := hle
  have hlen' : (l₁.blanks ++ (l₁.word ++ [b])).length ≤ l₁.width + 1 := hlen
  rw [← append_assoc, length_append, ← hrep.curindex] at hlen'
  have hlt : e₁.curindex < e₁.line.length := by
    rw [hrep.size, hm₁]
    exact Nat.lt_of_lt_of_le (Nat.lt_succ_of_le (Nat.le_of_succ_le_succ hlen')) hle'
  obtain ⟨e₂, hstore, hrep₂, hm₂⟩ := hrep.addbyte (b := b) hlt
  refine ⟨e₂, out, ?_, hrep₂, hm₂.trans hm₁, hdone⟩
  have hwidth : (if !e₁.inword then { e₁ with inword := true, wordindex := e₁.curindex }
      else e₁).width = l₁.width := by
    rw [← hrep.width]
    split <;> rfl
  rw [turn, if_neg hnewline, if_neg hspace, if_neg htab, hbreak]
  dsimp only
  rw [hwidth, addInt, if_pos (by omega), bind_some, hstore]
  rfl

theorem turn_spec (hlaid : Layout.Laid maxwidth front w c l) (h : Rep e l)
    (hm : e.maxwidth = maxwidth) (hpos : 0 < maxwidth) (hint : maxwidth < 2 ^ 31)
    (hb : isblank b = true → advance l.width b < 2 ^ 31) :
    ∃ e' out, e.turn b = some (e', out) ∧ Rep e' (l.step maxwidth b) ∧ e'.maxwidth = maxwidth ∧
      (l.step maxwidth b).done = l.done ++ out := by
  rw [Layout.step]
  by_cases hnewline : b = 10
  · subst hnewline
    obtain ⟨e', out, hturn, hrep, hm', hdone⟩ := turn_newline h
    rw [if_pos rfl]
    exact ⟨e', out, hturn, hrep, hm'.trans hm, hdone⟩
  · rw [if_neg hnewline]
    by_cases hblank : isblank b = true
    · obtain ⟨next, hturn, hnext⟩ := turn_isblank e hblank
      rw [if_pos hblank, hturn]
      refine h.blank hm (fun hle => ?_) ((hnext _).trans (if_pos (hb hblank)))
      have hlt := lt_advance l.width b
      have hlen := hlaid.length_le (by omega)
      omega
    · rw [if_neg hblank]
      refine turn_byte hlaid h hm hpos hint ?_
      rw [white, ← isblank, Bool.eq_false_iff.mpr hblank, Bool.false_or]
      exact decide_eq_false hnewline

theorem turn_none (h : Rep e l) (hb : isblank b = true) (hover : ¬ advance l.width b < 2 ^ 31) :
    e.turn b = none := by
  obtain ⟨next, hturn, hnext⟩ := turn_isblank e hb
  have hwidth : (if e.inword then e.flushline else (e, [])).1.width = l.width := by
    rw [← h.width]
    split <;> rfl
  rw [hturn, blank]
  dsimp only
  rw [hwidth, hnext, if_neg hover]
  rfl

theorem Layout.Laid.step (h : Layout.Laid maxwidth front w c l) (hpos : 0 < maxwidth) (b : Byte) :
    ∃ front' w' c', Layout.Laid maxwidth front' w' c' (l.step maxwidth b) ∧
      front' ++ w' = front ++ w ++ [b] ∧ ∀ s, Fits maxwidth c w.length (b :: s) ↔
        (isblank b = true → advance l.width b < 2 ^ 31) ∧ Fits maxwidth c' w'.length s := by
  rw [Layout.step]
  by_cases hnewline : b = 10
  · subst hnewline
    refine ⟨_, _, _, by rw [if_pos rfl]; exact h.newline, append_nil _, fun s => ?_⟩
    rw [Fits, if_pos rfl]
    exact (and_iff_right nofun).symm
  · by_cases hblank : isblank b = true
    · refine ⟨_, _, _, by rw [if_neg hnewline, if_pos hblank]; exact h.blank hblank,
        append_nil _, fun s => ?_⟩
      rw [Fits, if_neg hnewline, if_pos hblank, h.width, length_nil]
      exact and_congr_left' (imp_iff_right hblank).symm
    · have hb : white b = false := by
        rw [white, ← isblank, Bool.eq_false_iff.mpr hblank, Bool.false_or]
        exact decide_eq_false hnewline
      refine ⟨_, _, _, by rw [if_neg hnewline, if_neg hblank]; exact h.byte hpos hb,
        (append_assoc _ _ _).symm, fun s => ?_⟩
      rw [Fits, if_neg hnewline, if_neg hblank, length_append]
      exact (and_iff_right fun hyes => absurd hyes hblank).symm

/-- A run of the loop comes to its end as long as the column is an `int`. -/
theorem loop_spec (hpos : 0 < maxwidth) (hint : maxwidth < 2 ^ 31) (s : Str)
    (hlaid : Layout.Laid maxwidth front w c l) (h : Rep e l) (hm : e.maxwidth = maxwidth) :
    (Fits maxwidth c w.length s → ∃ e' out front' w' c' l', e.loop s = some (e', out) ∧
      Rep e' l' ∧ Layout.Laid maxwidth front' w' c' l' ∧ front' ++ w' = front ++ w ++ s ∧
      l'.done = l.done ++ out) ∧ (¬ Fits maxwidth c w.length s → e.loop s = none) := by
  induction s generalizing front w c l e with
  | nil =>
    refine ⟨fun _ => ⟨e, [], front, w, c, l, rfl, h, hlaid, ?_, ?_⟩, fun hnot => absurd trivial hnot⟩
    · rw [append_nil]
    · rw [append_nil]
  | cons b s ih =>
    obtain ⟨front₁, w₁, c₁, hlaid₁, hinput, hfits⟩ := hlaid.step hpos b
    rw [hfits, loop]
    by_cases hb : isblank b = true → advance l.width b < 2 ^ 31
    · obtain ⟨e₁, out₁, hturn, hrep₁, hm₁, hdone₁⟩ := turn_spec hlaid h hm hpos hint hb
      obtain ⟨hgoes, hstops⟩ := ih hlaid₁ hrep₁ hm₁
      rw [hturn, bind_some]
      dsimp only
      constructor
      · rintro ⟨-, hmore⟩
        obtain ⟨e', out, front', w', c', l', hloop, hrep', hlaid', hinput', hdone'⟩ := hgoes hmore
        refine ⟨e', out₁ ++ out, front', w', c', l', ?_, hrep', hlaid', ?_, ?_⟩
        · rw [hloop]
          rfl
        · rw [hinput', hinput, append_assoc _ [b]]
          rfl
        · rw [hdone', hdone₁, append_assoc]
      · intro hnot
        rw [hstops fun hmore => hnot ⟨hb, hmore⟩]
        rfl
    · refine ⟨fun hall => absurd hall.1 hb, fun _ => ?_⟩
      push Not at hb
      rw [turn_none h hb.1 (Nat.not_lt.mpr hb.2)]
      rfl

/-! ## Chunks -/

theorem loop_append (e : WvWordWrapEncoder) (s t : Str) :
    e.loop (s ++ t) = (e.loop s).bind fun (e, out) =>
      (e.loop t).map fun (e, more) => (e, out ++ more) := by
  induction s generalizing e with
  | nil => simp [loop]
  | cons b s ih =>
    rw [cons_append, loop, loop]
    cases e.turn b with
    | none => rfl
    | some r =>
      obtain ⟨e₁, out₁⟩ := r
      rw [Option.bind_some, Option.bind_some]
      dsimp only
      rw [ih]
      cases e₁.loop s with
      | none => rfl
      | some r =>
        obtain ⟨e₂, out₂⟩ := r
        rw [Option.bind_some, Option.map_some, Option.bind_some, Option.map_map]
        refine Option.map_congr fun r _ => ?_
        exact Prod.ext rfl (append_assoc _ _ _).symm

theorem encode_eq_loop (e : WvWordWrapEncoder) (chunk : Str) : e.encode chunk false = e.loop chunk := by
  cases chunk with
  | nil => rfl
  | cons b chunk =>
    rw [encode, if_pos (Or.inl (cons_ne_nil _ _)), _encode]
    exact map_id_apply

theorem flushChunks_eq (e : WvWordWrapEncoder) (chunks : List Str) (last : Str) :
    e.flushChunks chunks last = (e.loop (chunks.flatten ++ last)).map fun (e, out) =>
      (e.flushline.1, out ++ e.flushline.2) := by
  induction chunks generalizing e with
  | nil =>
    rw [flushChunks, encode, if_pos (Or.inr rfl)]
    rfl
  | cons chunk chunks ih =>
    rw [flushChunks, encode_eq_loop, flatten_cons, append_assoc, loop_append]
    cases e.loop chunk with
    | none => rfl
    | some r =>
      obtain ⟨e₁, out₁⟩ := r
      rw [Option.bind_some, Option.bind_some]
      dsimp only
      rw [ih, Option.map_map, Option.map_map]
      refine Option.map_congr fun r _ => ?_
      exact Prod.ext rfl (append_assoc _ _ _).symm

theorem rep_new (line : Str) : Rep (new line) ⟨[], [], [], 0⟩ :=
  ⟨rfl, rfl, rfl, iff_of_false Bool.false_ne_true fun hne => hne rfl, fun hne => absurd rfl hne,
    rfl⟩

theorem wraps_of_fits {line : Str} (hpos : 0 < line.length) (hint : line.length < 2 ^ 31)
    {chunks : List Str} {last : Str} (h : Fits line.length 0 0 (chunks.flatten ++ last)) :
    Wraps line chunks last := by
  obtain ⟨e, out, front, w, c, l, hloop, hrep, hlaid, hinput, hdone⟩ :=
    (loop_spec hpos hint _ (Layout.Laid.start line.length) (rep_new line) rfl).1 h
  refine ⟨e.flushline.1, out ++ e.flushline.2, ?_, ?_⟩
  · rw [flushChunks_eq]
    exact map_eq_some_iff.mpr ⟨(e, out), hloop, rfl⟩
  · have htext : out ++ e.flushline.2 = l.text := by
      rw [Layout.text, append_assoc, hdone]
      exact congrArg (out ++ ·) hrep.line
    have hwrapped := hlaid.wrapped
    rwa [hinput, ← htext] at hwrapped

theorem not_wraps {line : Str} (hpos : 0 < line.length) (hint : line.length < 2 ^ 31)
    {chunks : List Str} {last : Str} (h : ¬ Fits line.length 0 0 (chunks.flatten ++ last)) :
    ¬ Wraps line chunks last := by
  rintro ⟨e, out, hrun, -⟩
  have hnone :=
    (loop_spec hpos hint _ (Layout.Laid.start line.length) (rep_new line) rfl).2 h
  rw [flushChunks_eq] at hrun
  have hstop : (new line).loop (chunks.flatten ++ last) = none := hnone
  rw [hstop] at hrun
  cases hrun

/-- Wrapping fails exactly if blanks go on to a column that is not an `int`. -/
theorem wraps_iff {line : Str} (hpos : 0 < line.length) (hint : line.length < 2 ^ 31)
    (chunks : List Str) (last : Str) :
    Wraps line chunks last ↔ Fits line.length 0 0 (chunks.flatten ++ last) := by
  constructor
  · intro h
    by_contra hnot
    exact not_wraps hpos hint hnot h
  · exact wraps_of_fits hpos hint

/-- A tab and two words in two chunks, one of which does not fit on a line. -/
theorem wraps_iff_chunks : Wraps (List.replicate 4 0) [[9, 97], [98, 32, 97, 98, 99, 100]] [101] ↔
    Fits (List.replicate 4 (0 : Byte)).length 0 0
      ([[9, 97], [98, 32, 97, 98, 99, 100]].flatten ++ [101]) :=
  @wraps_iff (replicate 4 0) (by decide) (by decide) _ _

theorem fits_spaces {m c n : Nat} (hn : 0 < n) (h : Fits m c 0 (replicate n 32)) :
    c + n < 2 ^ 31 := by
  induction n generalizing c with
  | zero => exact absurd hn (Nat.lt_irrefl 0)
  | succ n ih =>
    have hblank : isblank 32 = true := rfl
    rw [replicate_succ, Fits, if_neg (by decide), if_pos hblank] at h
    have hnext : advance (endColumn m c 0) 32 = c + 1 := rfl
    rw [hnext] at h
    by_cases hzero : n = 0
    · rw [hzero]
      exact h.1
    · have hmore := ih (Nat.pos_of_ne_zero hzero) h.2
      omega

/-- Blanks without an end make the column too large. -/
theorem not_wraps_spaces : ¬ ∀ (line : Str), 0 < line.length → line.length < 2 ^ 31 →
    ∀ (chunks : List Str) (last : Str), Wraps line chunks last := by
  intro h
  refine @not_wraps [0] Nat.one_pos (by decide) [] (replicate (2 ^ 31) 32) (fun hfits => ?_)
    (h [0] Nat.one_pos (by decide) [] (replicate (2 ^ 31) 32))
  have hlt := fits_spaces (by decide) hfits
  omega

end WvWordWrapEncoder

end WvStreams
