import WvStreams.Strings.CNumber

/-!
# Version strings

A version number of the old style is written as its two halves, without the zeros at the end, and
one of the new style in three fields. The digits that are missing at the end are zeros to the
readers, too, and the number of dots tells the styles apart: each number comes back from its string
(`string_to_ver_ver_to_string`).
-/

namespace WvStreams

open List

namespace VerString

abbrev dot : Byte := 46

abbrev underscore : Byte := 95

def lookup : Str := bytes "0123456789abcdef"

def index (c : Byte) : Option Nat := lookup.idxOf? (tolower c)

def sprintf_x (n : Nat) : Str :=
  if n < 16 then [lookup.getD n 0] else sprintf_x (n / 16) ++ [lookup.getD (n % 16) 0]

def sprintf_0x (width n : Nat) : Str :=
  List.replicate (width - (sprintf_x n).length) 48 ++ sprintf_x n

/-- `sprintf` to an array of that size, which has to hold the terminating NUL, too. -/
def sprintf (size : Nat) (s : Str) : Option Str := if s.length < size then some s else none

/-- `trim_verstr`, from the end of the string on. -/
def trimLoop : Str → Str
  | 48 :: c :: s => if c = dot then 48 :: c :: s else trimLoop (c :: s)
  | s => s

end VerString

open VerString

def trim_verstr (verstr : Str) : Str := (trimLoop verstr.reverse).reverse

def is_new_ver (ver : UInt32) : Bool := ver &&& 0xff000000 != 0

def is_new_verstr (str : Str) : Bool :=
  match CStr.strchr str dot with
  | some (_ :: p) => (CStr.strchr p dot).isSome
  | _ => false

def old_ver_to_string (ver : UInt32) : Option Str :=
  let maj := (ver &&& 0xFFFF0000) >>> 16
  let min := ver &&& 0x0000FFFF
  (sprintf 10 (sprintf_x maj.toNat ++ dot :: sprintf_0x 4 min.toNat)).map trim_verstr

def new_ver_to_string (ver : UInt32) : Option Str :=
  let maj := (ver &&& 0xFF000000) >>> 24
  let min := (ver &&& 0x00FF0000) >>> 16
  let rev := ver &&& 0x0000FFFF
  sprintf 11 (sprintf_x maj.toNat ++ dot :: sprintf_0x 2 min.toNat ++ dot :: sprintf_0x 4 rev.toNat)

def ver_to_string (ver : UInt32) : Option Str :=
  if is_new_ver ver then new_ver_to_string ver else old_ver_to_string ver

namespace VerString

/-- The loop for the major number, up to a dot or an underscore. -/
def majorLoop (maj : UInt32) : Str → UInt32 × Str
  | [] => (maj, [])
  | c :: cptr =>
    if c = dot ∨ c = underscore then (maj, c :: cptr)
    else
      match index c with
      | none => majorLoop maj cptr
      | some idx => majorLoop (maj <<< 4 ||| UInt32.ofNat idx) cptr

/-- The loops for the other numbers: `bits` digits at most, up to a byte where it stops. -/
def digitLoop (stop : Byte → Bool) (bits : Nat) (num : UInt32) : Str → UInt32 × Nat × Str
  | [] => (num, bits, [])
  | c :: cptr =>
    if bits = 0 ∨ stop c = true then (num, bits, c :: cptr)
    else
      match index c with
      | none => digitLoop stop bits num cptr
      | some idx => digitLoop stop (bits - 1) (num <<< 4 ||| UInt32.ofNat idx) cptr

end VerString

def string_to_old_ver (str : Str) : UInt32 :=
  let (maj, cptr) := majorLoop 0 str
  let (min, bits, _) := digitLoop (fun _ => false) 4 0 cptr
  maj <<< 16 ||| min <<< UInt32.ofNat (4 * bits)

def string_to_new_ver (str : Str) : UInt32 :=
  let (maj, cptr) := majorLoop 0 str
  -- the separator is passed over
  let (min, _, cptr) := digitLoop (fun c => c == dot || c == underscore) 2 0 cptr.tail
  let (rev, bits, _) := digitLoop (fun _ => false) 4 0 cptr
  maj <<< 24 ||| min <<< 16 ||| rev <<< UInt32.ofNat (4 * bits)

def string_to_ver (str : Str) : UInt32 :=
  if is_new_verstr str then string_to_new_ver str else string_to_old_ver str

namespace VerString

def text (ds : List Nat) : Str := ds.map fun d => lookup.getD d 0

def push (n : Nat) (ds : List Nat) : Nat := ds.foldl (fun n d => n * 16 + d) n

theorem index_digit : ∀ d < 16, index (lookup.getD d 0) = some d := by decide

theorem digit_ne : ∀ d < 16, lookup.getD d 0 ≠ dot ∧ lookup.getD d 0 ≠ underscore := by decide

theorem digit_eq_zero : ∀ d < 16, (lookup.getD d 0 = 48 ↔ d = 0) := by decide

variable {ds ms : List Nat}

theorem notMem_text (h : ∀ d ∈ ds, d < 16) : dot ∉ text ds := by
  intro hmem
  obtain ⟨d, hd, heq⟩ := mem_map.mp hmem
  exact (digit_ne d (h d hd)).1 heq

theorem push_append (n : Nat) (as bs : List Nat) : push n (as ++ bs) = push (push n as) bs :=
  foldl_append

theorem push_eq (n : Nat) (ds : List Nat) : push n ds = n * 16 ^ ds.length + push 0 ds := by
  induction ds using reverseRecOn with
  | nil => simp [push]
  | append_singleton ds d ih =>
    rw [push_append, push_append, ih, length_append, length_singleton]
    have hone : ∀ m, push m [d] = m * 16 + d := fun m => rfl
    rw [hone, hone, Nat.pow_succ, Nat.add_mul, Nat.mul_assoc, Nat.add_assoc]

theorem le_push (n : Nat) (ds : List Nat) : n ≤ push n ds := by
  have hpos : 0 < 16 ^ ds.length := Nat.pow_pos (by omega)
  rw [push_eq]
  exact Nat.le_trans (Nat.le_mul_of_pos_right n hpos) (Nat.le_add_right _ _)

theorem push_zeros (n k : Nat) : push n (replicate k 0) = n * 16 ^ k := by
  induction k with
  | zero => simp [push]
  | succ k ih =>
    rw [replicate_succ', push_append, ih, Nat.pow_succ, ← Nat.mul_assoc]
    rfl

theorem sprintf_x_digits (n : Nat) {k : Nat} (hk : 0 < k) (hn : n < 16 ^ k) :
    ∃ ds, sprintf_x n = text ds ∧ (∀ d ∈ ds, d < 16) ∧ ds.length ≤ k ∧ push 0 ds = n := by
  induction k generalizing n with
  | zero => omega
  | succ k ih =>
    rw [sprintf_x]
    by_cases hless : n < 16
    · rw [if_pos hless]
      exact ⟨[n], rfl, by simpa using hless, by simp, by simp [push]⟩
    · have hdiv : n / 16 < 16 ^ k := Nat.div_lt_of_lt_mul (by rwa [Nat.pow_succ'] at hn)
      have hk : 0 < k := by
        rcases Nat.eq_zero_or_pos k with rfl | hk
        · rw [Nat.pow_zero] at hdiv
          omega
        · exact hk
      obtain ⟨ds, htext, hds, hlen, hpush⟩ := ih (n / 16) hk hdiv
      refine ⟨ds ++ [n % 16], ?_, ?_, ?_, ?_⟩
      · rw [if_neg hless, htext, text, text, map_append]
        rfl
      · refine forall_mem_append.mpr ⟨hds, forall_mem_singleton.mpr ?_⟩
        exact Nat.mod_lt n (by omega)
      · rw [length_append, length_singleton]
        omega
      · rw [push_append, hpush]
        exact Nat.div_add_mod' n 16

theorem sprintf_0x_digits (n : Nat) {k : Nat} (hk : 0 < k) (hn : n < 16 ^ k) :
    ∃ ds, sprintf_0x k n = text ds ∧ (∀ d ∈ ds, d < 16) ∧ ds.length = k ∧ push 0 ds = n := by
  obtain ⟨ds, htext, hds, hlen, hpush⟩ := sprintf_x_digits n hk hn
  refine ⟨replicate (k - ds.length) 0 ++ ds, ?_, ?_, ?_, ?_⟩
  · have hzero : lookup.getD 0 0 = 48 := rfl
    rw [sprintf_0x, htext, text, text, map_append, map_replicate, length_map, hzero]
  · refine forall_mem_append.mpr ⟨fun d hd => ?_, hds⟩
    rw [eq_of_mem_replicate hd]
    omega
  · rw [length_append, length_replicate]
    omega
  · rw [push_append, push_zeros, Nat.zero_mul, hpush]

theorem trimLoop_digits (maj : Str) (hds : ∀ d ∈ ds, d < 16) (hne : ds ≠ []) :
    ∃ ds' k, ds = ds' ++ replicate k 0 ∧
      trimLoop ((text ds).reverse ++ dot :: maj) = (text ds').reverse ++ dot :: maj := by
  induction ds using reverseRecOn with
  | nil => exact absurd rfl hne
  | append_singleton ds d ih =>
    obtain ⟨hinit, hd⟩ := forall_mem_append.mp hds
    have hd := hd d (mem_singleton_self d)
    have hrev : (text (ds ++ [d])).reverse = lookup.getD d 0 :: (text ds).reverse := by
      simp [text]
    rw [hrev, cons_append]
    by_cases hzero : d = 0
    · subst hzero
      rcases eq_nil_or_concat ds with rfl | ⟨init, c, rfl⟩
      · exact ⟨[0], 0, rfl, rfl⟩
      · obtain ⟨ds', k, hsplit, htrim⟩ := ih hinit (by simp)
        have hc : lookup.getD c 0 ≠ dot := (digit_ne c (hinit c (by simp))).1
        refine ⟨ds', k + 1, ?_, ?_⟩
        · rw [hsplit, replicate_succ', append_assoc]
        · rw [← htrim]
          simp only [text, concat_eq_append, map_append, map_cons, map_nil,
            reverse_append, reverse_singleton, cons_append]
          exact if_neg hc
    · refine ⟨ds ++ [d], 0, by simp, ?_⟩
      rw [hrev, cons_append, trimLoop]
      intro c s h48
      exact absurd ((digit_eq_zero d hd).mp (cons.inj h48).1) hzero

theorem trim_digits (maj : Str) (hds : ∀ d ∈ ds, d < 16) (hne : ds ≠ []) :
    ∃ ds' k, ds = ds' ++ replicate k 0 ∧
      trim_verstr (maj ++ dot :: text ds) = maj ++ dot :: text ds' := by
  obtain ⟨ds', k, hsplit, htrim⟩ := trimLoop_digits maj.reverse hds hne
  refine ⟨ds', k, hsplit, ?_⟩
  have hrev : (maj ++ dot :: text ds).reverse = (text ds).reverse ++ dot :: maj.reverse := by simp
  rw [trim_verstr, hrev, htrim]
  simp

theorem ofNat_shiftLeft {n s : Nat} (hs : s < 32) (hfit : n * 2 ^ s < 2 ^ 32) :
    UInt32.ofNat n <<< UInt32.ofNat s = UInt32.ofNat (n * 2 ^ s) := by
  have hn : n % 2 ^ 32 = n := by
    have hle : n * 1 ≤ n * 2 ^ s := Nat.mul_le_mul_left n (Nat.one_le_two_pow)
    exact Nat.mod_eq_of_lt (by omega)
  have hs' : s % 2 ^ 32 % 32 = s := by omega
  apply UInt32.toNat.inj
  rw [UInt32.toNat_shiftLeft, UInt32.toNat_ofNat', UInt32.toNat_ofNat', UInt32.toNat_ofNat', hn, hs',
    Nat.shiftLeft_eq]

theorem ofNat_or {n m s : Nat} (hm : m < 2 ^ s) (hfit : n * 2 ^ s + m < 2 ^ 32) :
    UInt32.ofNat (n * 2 ^ s) ||| UInt32.ofNat m = UInt32.ofNat (n * 2 ^ s + m) := by
  apply UInt32.toNat.inj
  rw [UInt32.toNat_or, UInt32.toNat_ofNat', UInt32.toNat_ofNat', UInt32.toNat_ofNat',
    Nat.mod_eq_of_lt (by omega), Nat.mod_eq_of_lt (by omega), Nat.mod_eq_of_lt hfit,
    ← Nat.shiftLeft_eq, Nat.shiftLeft_add_eq_or_of_lt hm]

theorem shift_or {n d : Nat} (hd : d < 16) (hfit : n * 16 + d < 2 ^ 32) :
    UInt32.ofNat n <<< 4 ||| UInt32.ofNat d = UInt32.ofNat (n * 16 + d) := by
  have hshift : UInt32.ofNat n <<< 4 = UInt32.ofNat (n * 2 ^ 4) :=
    ofNat_shiftLeft (s := 4) (by omega) (by omega)
  rw [hshift]
  exact ofNat_or hd hfit

theorem majorLoop_digits {n : Nat} (hds : ∀ d ∈ ds, d < 16) (hfit : push n ds < 2 ^ 32)
    (rest : Str) :
    majorLoop (UInt32.ofNat n) (text ds ++ dot :: rest) =
      (UInt32.ofNat (push n ds), dot :: rest) := by
  induction ds generalizing n with
  | nil => exact if_pos (Or.inl rfl)
  | cons d ds ih =>
    obtain ⟨hd, hds⟩ := forall_mem_cons.mp hds
    obtain ⟨hdot, hunder⟩ := digit_ne d hd
    have hlt : n * 16 + d < 2 ^ 32 := Nat.lt_of_le_of_lt (le_push _ ds) hfit
    rw [text, map_cons, cons_append, majorLoop, if_neg (not_or.mpr ⟨hdot, hunder⟩),
      index_digit d hd]
    dsimp only
    rw [shift_or hd hlt]
    exact ih hds hfit

theorem digitLoop_digits (stop : Byte → Bool) (hstop : ∀ d < 16, stop (lookup.getD d 0) = false)
    (n bits : Nat) (hds : ∀ d ∈ ds, d < 16) (hlen : ds.length ≤ bits) (hfit : push n ds < 2 ^ 32)
    (rest : Str) :
    digitLoop stop bits (UInt32.ofNat n) (text ds ++ rest) =
      digitLoop stop (bits - ds.length) (UInt32.ofNat (push n ds)) rest := by
  induction ds generalizing n bits with
  | nil => rfl
  | cons d ds ih =>
    obtain ⟨hd, hds⟩ := forall_mem_cons.mp hds
    have hlt : n * 16 + d < 2 ^ 32 := Nat.lt_of_le_of_lt (le_push _ ds) hfit
    have hmore : ¬ (bits = 0 ∨ stop (lookup.getD d 0) = true) := by
      rw [hstop d hd]
      rintro (hzero | h)
      · rw [hzero] at hlen
        cases hlen
      · cases h
    rw [length_cons] at hlen
    rw [text, map_cons, cons_append, digitLoop, if_neg hmore, index_digit d hd]
    dsimp only
    rw [shift_or hd hlt]
    refine (ih _ _ hds (by omega) hfit).trans ?_
    rw [length_cons, Nat.sub_sub, Nat.add_comm 1]
    rfl

theorem digitLoop_dot (bits : Nat) (num : UInt32) (rest : Str) (hbits : bits ≠ 0) :
    digitLoop (fun _ => false) bits num (dot :: rest) =
      digitLoop (fun _ => false) bits num rest := by
  have hdot : index dot = none := rfl
  rw [digitLoop, if_neg (by simp [hbits]), hdot]

theorem digitLoop_last {bits : Nat} (hds : ∀ d ∈ ds, d < 16) (hlen : ds.length ≤ bits)
    (hfit : push 0 ds < 2 ^ 32) :
    digitLoop (fun _ => false) bits 0 (text ds) =
      (UInt32.ofNat (push 0 ds), bits - ds.length, []) := by
  have hread := digitLoop_digits (fun _ => false) (fun _ _ => rfl) 0 bits hds hlen hfit []
  rw [append_nil] at hread
  rw [show (0 : UInt32) = UInt32.ofNat 0 from rfl, hread]
  rfl

theorem string_to_old_ver_text {k : Nat} (hms : ∀ d ∈ ms, d < 16) (hds : ∀ d ∈ ds, d < 16)
    (hlen : ds.length + k = 4) (hmaj : push 0 ms < 2 ^ 16) (hmin : push 0 ds * 16 ^ k < 2 ^ 16) :
    string_to_old_ver (text ms ++ dot :: text ds) =
      UInt32.ofNat (push 0 ms * 2 ^ 16 + push 0 ds * 16 ^ k) := by
  have hpow : 16 ^ k = 2 ^ (4 * k) := by rw [Nat.pow_mul]
  have hle : push 0 ds * 1 ≤ push 0 ds * 16 ^ k :=
    Nat.mul_le_mul_left _ (Nat.one_le_pow _ _ (by omega))
  have hbits : 4 - ds.length = k := by omega
  have hmajor := majorLoop_digits (n := 0) hms (by omega) (text ds)
  rw [string_to_old_ver, show (0 : UInt32) = UInt32.ofNat 0 from rfl, hmajor]
  dsimp only
  rw [digitLoop_dot 4 _ _ (by omega), show UInt32.ofNat 0 = (0 : UInt32) from rfl,
    digitLoop_last hds (by omega) (by omega), hbits]
  rw [ofNat_shiftLeft (s := 4 * k) (by omega) (by rw [← hpow]; omega), ← hpow]
  have hshift : UInt32.ofNat (push 0 ms) <<< 16 = UInt32.ofNat (push 0 ms * 2 ^ 16) :=
    ofNat_shiftLeft (s := 16) (by omega) (by omega)
  rw [hshift]
  exact ofNat_or hmin (by omega)

theorem string_to_new_ver_text {ns rs : List Nat} (hms : ∀ d ∈ ms, d < 16)
    (hns : ∀ d ∈ ns, d < 16) (hrs : ∀ d ∈ rs, d < 16) (hnlen : ns.length = 2)
    (hrlen : rs.length = 4) (hmaj : push 0 ms < 2 ^ 8) (hmin : push 0 ns < 2 ^ 8)
    (hrev : push 0 rs < 2 ^ 16) :
    string_to_new_ver (text ms ++ dot :: (text ns ++ dot :: text rs)) =
      UInt32.ofNat (push 0 ms * 2 ^ 24 + push 0 ns * 2 ^ 16 + push 0 rs) := by
  have hstop : ∀ d < 16, (lookup.getD d 0 == dot || lookup.getD d 0 == underscore) = false := by
    intro d hd
    obtain ⟨hdot, hunder⟩ := digit_ne d hd
    exact Bool.or_eq_false_iff.mpr ⟨beq_eq_false_iff_ne.mpr hdot, beq_eq_false_iff_ne.mpr hunder⟩
  have hmajor := majorLoop_digits (n := 0) hms (by omega) (text ns ++ dot :: text rs)
  have hminor := digitLoop_digits (fun c => c == dot || c == underscore) hstop 0 2 hns (by omega)
    (by omega) (dot :: text rs)
  have hfull : ∀ num, digitLoop (fun c => c == dot || c == underscore) 0 num (dot :: text rs) =
      (num, 0, dot :: text rs) := fun num => if_pos (Or.inl rfl)
  rw [hnlen, hfull] at hminor
  have hbits : 4 - rs.length = 0 := by omega
  rw [string_to_new_ver, show (0 : UInt32) = UInt32.ofNat 0 from rfl, hmajor]
  dsimp only [tail_cons]
  rw [hminor]
  rw [digitLoop_dot 4 _ _ (by omega), show UInt32.ofNat 0 = (0 : UInt32) from rfl,
    digitLoop_last hrs (by omega) (by omega), hbits]
  have hmaj24 : UInt32.ofNat (push 0 ms) <<< 24 = UInt32.ofNat (push 0 ms * 2 ^ 24) :=
    ofNat_shiftLeft (s := 24) (by omega) (by omega)
  have hmin16 : UInt32.ofNat (push 0 ns) <<< 16 = UInt32.ofNat (push 0 ns * 2 ^ 16) :=
    ofNat_shiftLeft (s := 16) (by omega) (by omega)
  have hrev0 : UInt32.ofNat (push 0 rs) <<< UInt32.ofNat (4 * 0) = UInt32.ofNat (push 0 rs) :=
    (ofNat_shiftLeft (s := 0) (by omega) (by omega)).trans (by rw [Nat.pow_zero, Nat.mul_one])
  have hsum : push 0 ms * 2 ^ 24 + push 0 ns * 2 ^ 16 = (push 0 ms * 2 ^ 8 + push 0 ns) * 2 ^ 16 := by
    omega
  rw [hmaj24, hmin16, hrev0, ofNat_or (by omega) (by omega), hsum]
  exact ofNat_or hrev (by omega)

theorem is_new_verstr_old (hms : ∀ d ∈ ms, d < 16) (hds : ∀ d ∈ ds, d < 16) :
    is_new_verstr (text ms ++ dot :: text ds) = false := by
  rw [is_new_verstr, CStr.strchr_append (notMem_text hms)]
  dsimp only
  rw [CStr.strchr_none (notMem_text hds)]
  rfl

theorem is_new_verstr_new {ns : List Nat} (hms : ∀ d ∈ ms, d < 16) (hns : ∀ d ∈ ns, d < 16)
    (rest : Str) : is_new_verstr (text ms ++ dot :: (text ns ++ dot :: rest)) = true := by
  rw [is_new_verstr, CStr.strchr_append (notMem_text hms)]
  dsimp only
  rw [CStr.strchr_append (notMem_text hns)]
  rfl

theorem and_shiftRight (n w s : Nat) : (n &&& (2 ^ w - 1) * 2 ^ s) >>> s = n / 2 ^ s % 2 ^ w := by
  rw [Nat.shiftRight_and_distrib, Nat.shiftRight_eq_div_pow, Nat.shiftRight_eq_div_pow,
    Nat.mul_div_cancel _ (Nat.two_pow_pos s), Nat.and_two_pow_sub_one_eq_mod]

theorem field (v : UInt32) (w s : Nat) (hs : s < 32) (mask : UInt32)
    (hmask : mask.toNat = (2 ^ w - 1) * 2 ^ s) :
    ((v &&& mask) >>> UInt32.ofNat s).toNat = v.toNat / 2 ^ s % 2 ^ w := by
  have hs' : s % 2 ^ 32 % 32 = s := by omega
  rw [UInt32.toNat_shiftRight, UInt32.toNat_and, UInt32.toNat_ofNat', hs', hmask, and_shiftRight]

theorem and_low (v : UInt32) : (v &&& 0x0000FFFF).toNat = v.toNat % 2 ^ 16 :=
  (UInt32.toNat_and v _).trans (Nat.and_two_pow_sub_one_eq_mod v.toNat 16)

theorem is_new_ver_iff (v : UInt32) : is_new_ver v = true ↔ 2 ^ 24 ≤ v.toNat := by
  have hbound : v.toNat < 2 ^ 32 := v.toNat_lt
  have htop : ((v &&& 0xff000000) >>> 24).toNat = v.toNat / 2 ^ 24 % 2 ^ 8 :=
    field v 8 24 (by omega) 0xff000000 rfl
  rw [is_new_ver, bne_iff_ne]
  constructor
  · intro hne
    by_contra hless
    apply hne
    apply UInt32.toNat.inj
    -- no bit is in both numbers
    have hmod : (v &&& 0xff000000).toNat % 2 ^ 24 = 0 := by
      rw [UInt32.toNat_and, Nat.and_mod_two_pow]
      exact Nat.and_zero _
    have hle : (v &&& 0xff000000).toNat ≤ v.toNat := by
      rw [UInt32.toNat_and]
      exact Nat.and_le_left
    show _ = 0
    omega
  · intro hle hzero
    rw [hzero] at htop
    change 0 = _ at htop
    omega

end VerString

/-- Each number comes back from its string, which is of the same style. -/
theorem string_to_ver_ver_to_string (ver : UInt32) :
    ∃ str, ver_to_string ver = some str ∧ string_to_ver str = ver ∧
      is_new_verstr str = is_new_ver ver := by
  have hbound : ver.toNat < 2 ^ 32 := ver.toNat_lt
  have hlow := VerString.and_low ver
  by_cases hnew : is_new_ver ver = true
  · have hmaj : ((ver &&& 0xFF000000) >>> 24).toNat = ver.toNat / 2 ^ 24 % 2 ^ 8 :=
      field ver 8 24 (by omega) _ rfl
    have hmin : ((ver &&& 0x00FF0000) >>> 16).toNat = ver.toNat / 2 ^ 16 % 2 ^ 8 :=
      field ver 8 16 (by omega) _ rfl
    obtain ⟨ms, hmtext, hms, hmlen, hmpush⟩ :=
      sprintf_x_digits (ver.toNat / 2 ^ 24 % 2 ^ 8) (k := 2) (by omega) (by omega)
    obtain ⟨ns, hntext, hns, hnlen, hnpush⟩ :=
      sprintf_0x_digits (ver.toNat / 2 ^ 16 % 2 ^ 8) (k := 2) (by omega) (by omega)
    obtain ⟨rs, hrtext, hrs, hrlen, hrpush⟩ :=
      sprintf_0x_digits (ver.toNat % 2 ^ 16) (k := 4) (by omega) (by omega)
    have hstyle := is_new_verstr_new hms hns (text rs)
    refine ⟨text ms ++ dot :: (text ns ++ dot :: text rs), ?_, ?_, hstyle.trans hnew.symm⟩
    · rw [ver_to_string, if_pos hnew, new_ver_to_string]
      rw [hmaj, hmin, hlow, hmtext, hntext, hrtext, append_assoc, cons_append]
      apply if_pos
      simp only [text, length_append, length_cons, length_map]
      omega
    · rw [string_to_ver, if_pos hstyle, string_to_new_ver_text hms hns hrs hnlen hrlen (by omega)
        (by omega) (by omega), hmpush, hnpush, hrpush]
      apply UInt32.toNat.inj
      rw [UInt32.toNat_ofNat']
      omega
  · have hless : ver.toNat < 2 ^ 24 := Nat.not_le.mp fun hle => hnew ((is_new_ver_iff ver).mpr hle)
    have hmaj : ((ver &&& 0xFFFF0000) >>> 16).toNat = ver.toNat / 2 ^ 16 % 2 ^ 16 :=
      field ver 16 16 (by omega) _ rfl
    obtain ⟨ms, hmtext, hms, hmlen, hmpush⟩ :=
      sprintf_x_digits (ver.toNat / 2 ^ 16 % 2 ^ 16) (k := 2) (by omega) (by omega)
    obtain ⟨ds, hdtext, hds, hdlen, hdpush⟩ :=
      sprintf_0x_digits (ver.toNat % 2 ^ 16) (k := 4) (by omega) (by omega)
    obtain ⟨ds', k, rfl, htrim⟩ := trim_digits (text ms) hds (by rintro rfl; cases hdlen)
    have hds' : ∀ d ∈ ds', d < 16 := fun d hd => hds d (mem_append_left _ hd)
    rw [length_append, length_replicate] at hdlen
    rw [push_append, push_zeros] at hdpush
    have hstyle := is_new_verstr_old hms hds'
    refine ⟨text ms ++ dot :: text ds', ?_, ?_, hstyle.trans (Bool.eq_false_iff.mpr hnew).symm⟩
    · rw [ver_to_string, if_neg hnew, old_ver_to_string]
      rw [hmaj, hlow, hmtext, hdtext]
      have hfits : (text ms ++ dot :: text (ds' ++ replicate k 0)).length < 10 := by
        simp only [text, length_append, length_cons, length_map, length_replicate]
        omega
      rw [sprintf, if_pos hfits, Option.map_some, htrim]
    · rw [string_to_ver, hstyle, if_neg (by decide), string_to_old_ver_text hms hds' hdlen
        (by omega) (by omega), hmpush, hdpush]
      apply UInt32.toNat.inj
      rw [UInt32.toNat_ofNat']
      omega

end WvStreams
