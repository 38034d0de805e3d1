import WvStreams.Lib.LeadingOnes

/-!
# `WvIPAddr` and `WvIPNet`

An address is its four bytes. `include` takes from the mask what the two networks do not share, and
`normalize` keeps the leading ones of that as `bits` counts them. The loop of `bits` always counts
the first bit and asks only the following ones whether to go on. So it is right when the first bit
is set, or when neither it nor the second one is (`bits_iff`), and the same decides whether
`normalize` leaves a network in which all is included (`include_normalize_iff`).
-/

namespace WvStreams

open Lib

structure WvIPAddr where
  binaddr : Fin 4 → BitVec 8

namespace WvIPAddr

def bytes (a : WvIPAddr) : BitVec (8 + 8 + 8 + 8) :=
  a.binaddr 0 ++ a.binaddr 1 ++ a.binaddr 2 ++ a.binaddr 3

def host (a : WvIPAddr) : BitVec 32 := a.bytes

/-- The address whose bytes in memory are those of `htonl(v)`. -/
def ofHost (v : BitVec 32) : WvIPAddr := ⟨fun i => v.extractLsb' (8 * (3 - i.val)) 8⟩

instance : Inhabited WvIPAddr := ⟨⟨fun _ => 0⟩⟩

instance : DecidableEq WvIPAddr := fun a b =>
  decidable_of_iff (∀ i, a.binaddr i = b.binaddr i)
    ⟨fun h => congrArg mk (funext h), fun h _ => h ▸ rfl⟩

def and (a a2 : WvIPAddr) : WvIPAddr := ⟨fun i => a.binaddr i &&& a2.binaddr i⟩

def xor (a a2 : WvIPAddr) : WvIPAddr := ⟨fun i => a.binaddr i ^^^ a2.binaddr i⟩

def not (a : WvIPAddr) : WvIPAddr := ⟨fun i => ~~~a.binaddr i⟩

end WvIPAddr

structure WvIPNet extends WvIPAddr where
  mask : WvIPAddr

namespace WvIPNet

def imask (bits : Nat) : BitVec 32 := if bits > 0 then ~~~((1 <<< (32 - bits)) - 1) else 0

def ofBits (base : WvIPAddr) (bits : Nat := 32) : WvIPNet := ⟨base, .ofHost (imask bits)⟩

/-- The conversion of an address that is passed where a network is asked for. -/
instance : Coe WvIPAddr WvIPNet := ⟨fun base => ofBits base⟩

def base (n : WvIPNet) : WvIPAddr := n.toWvIPAddr

def netmask (n : WvIPNet) : WvIPAddr := n.mask

def network (n : WvIPNet) : WvIPAddr := n.toWvIPAddr.and n.mask

def include_ (n addr : WvIPNet) : WvIPNet :=
  { n with mask := (n.mask.and addr.mask).and (n.toWvIPAddr.xor addr.toWvIPAddr).not }

def includes (n addr : WvIPNet) : Bool :=
  addr.base.and n.netmask = n.network && addr.netmask.and n.netmask = n.netmask

/-- The loop of `bits`. After 31 shifts there is no bit left, so it is run 32 times at most. -/
def bitsLoop : Nat → BitVec 32 → Nat
  | 0, _ => 0
  | n + 1, val =>
    (val >>> 31).toNat + if ((val <<< 1) &&& (1 <<< 31)) ≠ 0 then bitsLoop n (val <<< 1) else 0

def bits (n : WvIPNet) : Nat := bitsLoop 32 n.mask.host

def normalize (n : WvIPNet) : WvIPNet :=
  if n.bits > 0 then { n with mask := .ofHost (~~~((1 <<< (32 - n.bits)) - 1)) }
  else { n with mask := default }

end WvIPNet

namespace WvIPAddr

@[simp] theorem host_and (a a2 : WvIPAddr) : (a.and a2).host = a.host &&& a2.host := by
  change (a.and a2).bytes = a.bytes &&& a2.bytes
  simp only [bytes, and, BitVec.and_append]

@[simp] theorem host_xor (a a2 : WvIPAddr) : (a.xor a2).host = a.host ^^^ a2.host := by
  change (a.xor a2).bytes = a.bytes ^^^ a2.bytes
  simp only [bytes, xor, BitVec.xor_append]

@[simp] theorem host_not (a : WvIPAddr) : a.not.host = ~~~a.host := by
  change a.not.bytes = ~~~a.bytes
  simp only [bytes, not, BitVec.not_append]

@[simp] theorem host_ofHost (v : BitVec 32) : (ofHost v).host = v := by
  change v.extractLsb' 24 8 ++ v.extractLsb' 16 8 ++ v.extractLsb' 8 8 ++ v.extractLsb' 0 8 = v
  rw [BitVec.extractLsb'_append_extractLsb'_eq_extractLsb' (show 24 = 16 + 8 from rfl),
    BitVec.extractLsb'_append_extractLsb'_eq_extractLsb' (show 16 = 8 + 8 from rfl),
    BitVec.extractLsb'_append_extractLsb'_eq_extractLsb' (show 8 = 0 + 8 from rfl)]
  exact BitVec.extractLsb'_eq_self

theorem extract_host (a : WvIPAddr) (i : Fin 4) :
    a.host.extractLsb' (8 * (3 - i.val)) 8 = a.binaddr i := by
  change a.bytes.extractLsb' (8 * (3 - i.val)) 8 = a.binaddr i
  apply BitVec.eq_of_getLsbD_eq
  intro j hj
  rw [BitVec.getLsbD_extractLsb', decide_eq_true hj, Bool.true_and]
  simp only [bytes, BitVec.getLsbD_append]
  match i with
  | ⟨0, _⟩ =>
    simp (disch := omega) only [if_neg, show 8 * (3 - 0) + j - 8 - 8 - 8 = j by omega]
    rfl
  | ⟨1, _⟩ =>
    simp (disch := omega) only [if_neg, if_pos, show 8 * (3 - 1) + j - 8 - 8 = j by omega]
    rfl
  | ⟨2, _⟩ =>
    simp (disch := omega) only [if_neg, if_pos, show 8 * (3 - 2) + j - 8 = j by omega]
    rfl
  | ⟨3, _⟩ =>
    simp (disch := omega) only [if_pos, show 8 * (3 - 3) + j = j by omega]
    rfl

@[simp] theorem ofHost_host (a : WvIPAddr) : ofHost a.host = a :=
  congrArg mk (funext (extract_host a))

theorem host_inj {a b : WvIPAddr} : a.host = b.host ↔ a = b := by
  constructor
  · intro h
    rw [← ofHost_host a, h, ofHost_host]
  · intro h
    rw [h]

def bit (a : WvIPAddr) (i : Nat) : Bool := a.host.getMsbD i

@[simp] theorem bit_and (a a2 : WvIPAddr) (i : Nat) : (a.and a2).bit i = (a.bit i && a2.bit i) := by
  simp [bit]

@[simp] theorem bit_xor (a a2 : WvIPAddr) (i : Nat) : (a.xor a2).bit i = (a.bit i ^^ a2.bit i) := by
  simp [bit]

@[simp] theorem bit_not (a : WvIPAddr) {i : Nat} (hi : i < 32) : a.not.bit i = !a.bit i := by
  simp [bit, hi]

theorem eq_iff_bit {a b : WvIPAddr} : a = b ↔ ∀ i < 32, a.bit i = b.bit i := by
  constructor
  · rintro rfl i -
    rfl
  · intro h
    rw [← host_inj]
    exact BitVec.eq_of_getMsbD_eq h

def flip (a : WvIPAddr) : WvIPAddr := a.xor (ofHost (topOnes 32 1))

theorem bit_flip (a : WvIPAddr) (i : Nat) : a.flip.bit i = (a.bit i ^^ decide (i < 1)) := by
  rw [flip, bit_xor]
  congr 1
  rw [bit, host_ofHost, getMsbD_topOnes (by omega)]

@[simp] theorem bit_flip_zero (a : WvIPAddr) : a.flip.bit 0 = !a.bit 0 := by simp [bit_flip]

@[simp] theorem bit_flip_succ (a : WvIPAddr) (i : Nat) : a.flip.bit (i + 1) = a.bit (i + 1) := by
  simp [bit_flip]

end WvIPAddr

namespace WvIPNet

open WvIPAddr

theorem topBit (val : BitVec 32) : (val >>> 31).toNat = (val.getMsbD 0).toNat := by
  rw [← BitVec.msb_eq_getMsbD_zero, BitVec.msb_eq_decide, BitVec.toNat_ushiftRight,
    Nat.shiftRight_eq_div_pow]
  have hlt := val.isLt
  by_cases h : 2 ^ 31 ≤ val.toNat
  · simp only [h, decide_true, Bool.toNat_true]
    omega
  · simp only [h, decide_false, Bool.toNat_false]
    omega

theorem nextBit (val : BitVec 32) : ((val <<< 1) &&& (1 <<< 31)) ≠ 0 ↔ val.getMsbD 1 = true := by
  have htop : (1 <<< 31 : BitVec 32) = BitVec.twoPow 32 31 := rfl
  have hbit : (val <<< 1).getLsbD 31 = val.getMsbD 1 := by
    simp [BitVec.getMsbD]
  rw [htop, BitVec.and_twoPow, hbit]
  cases val.getMsbD 1 <;> simp

theorem getMsbD_shiftLeft_one (val : BitVec 32) (i : Nat) :
    (val <<< 1).getMsbD i = val.getMsbD (i + 1) := by
  rw [BitVec.getMsbD_shiftLeft, Nat.add_comm]

theorem bitsLoop_eq {n k : Nat} {val : BitVec 32} (hn : k < n)
    (hones : ∀ i < k, val.getMsbD (i + 1) = true) (hstop : val.getMsbD (k + 1) = false) :
    bitsLoop n val = (val.getMsbD 0).toNat + k := by
  induction k generalizing n val with
  | zero =>
    obtain ⟨n, rfl⟩ : ∃ m, n = m + 1 := ⟨n - 1, by omega⟩
    have hnext : ¬ ((val <<< 1) &&& (1 <<< 31)) ≠ 0 := by
      rw [nextBit, hstop]
      simp
    rw [bitsLoop, topBit, if_neg hnext]
  | succ k ih =>
    obtain ⟨n, rfl⟩ : ∃ m, n = m + 1 := ⟨n - 1, by omega⟩
    have hfirst : val.getMsbD 1 = true := hones 0 (by omega)
    have hrest : bitsLoop n (val <<< 1) = 1 + k := by
      rw [ih (by omega) (fun i hi => by rw [getMsbD_shiftLeft_one]; exact hones (i + 1) (by omega))
        (by rw [getMsbD_shiftLeft_one]; exact hstop), getMsbD_shiftLeft_one, hfirst]
      rfl
    rw [bitsLoop, topBit, if_pos ((nextBit val).mpr hfirst), hrest]
    omega

theorem exists_run (val : BitVec 32) :
    ∃ k < 32, (∀ i < k, val.getMsbD (i + 1) = true) ∧ val.getMsbD (k + 1) = false := by
  obtain ⟨k, hk⟩ := exists_leadingOnes (val <<< 1)
  have hlt : k < 32 := by
    apply Nat.lt_of_le_of_ne hk.le
    rintro rfl
    have h31 := hk.ones 31 (by omega)
    rw [getMsbD_shiftLeft_one] at h31
    simp [BitVec.getMsbD] at h31
  refine ⟨k, hlt, ?_, ?_⟩
  · intro i hi
    rw [← getMsbD_shiftLeft_one]
    exact hk.ones i hi
  · rw [← getMsbD_shiftLeft_one]
    exact hk.stop

theorem bits_eq {n : WvIPNet} {k : Nat} (hk : k < 32)
    (hones : ∀ i < k, n.mask.bit (i + 1) = true) (hstop : n.mask.bit (k + 1) = false) :
    n.bits = (n.mask.bit 0).toNat + k :=
  bitsLoop_eq hk hones hstop

theorem bits_le (n : WvIPNet) : n.bits ≤ 32 := by
  obtain ⟨k, hk, hones, hstop⟩ := exists_run n.mask.host
  rw [bits_eq hk hones hstop]
  have := Bool.toNat_le (n.mask.bit 0)
  omega

theorem bits_iff (n : WvIPNet) :
    IsLeadingOnes n.mask.host n.bits ↔ (n.mask.bit 1 = true → n.mask.bit 0 = true) := by
  obtain ⟨k, hk, hones, hstop⟩ := exists_run n.mask.host
  have hbits : n.bits = (n.mask.bit 0).toNat + k := bits_eq hk hones hstop
  rw [hbits]
  cases h0 : n.mask.bit 0 with
  | true =>
    have hrun : IsLeadingOnes n.mask.host (1 + k) := by
      refine ⟨by omega, ?_, ?_⟩
      · intro i hi
        cases i with
        | zero => exact h0
        | succ i => exact hones i (by omega)
      · rw [Nat.add_comm]
        exact hstop
    simpa using hrun
  | false =>
    have hzero : IsLeadingOnes n.mask.host 0 := ⟨by omega, by simp, h0⟩
    constructor
    · intro h h1
      have hk0 : k = 0 := by simpa using h.unique hzero
      subst hk0
      exact absurd h1 (by simpa [bit] using hstop)
    · intro h
      have hk0 : k = 0 := by
        by_contra hne
        have h1 : n.mask.bit 1 = true := hones 0 (by omega)
        simp [h1] at h
      subst hk0
      simpa using hzero

abbrev baseBit (n : WvIPNet) (i : Nat) : Bool := n.toWvIPAddr.bit i

def Contiguous (n : WvIPNet) : Prop := ∃ k ≤ 32, ∀ i < 32, n.mask.bit i = decide (i < k)

@[simp] theorem normalize_base (n : WvIPNet) : n.normalize.toWvIPAddr = n.toWvIPAddr := by
  unfold normalize
  split <;> rfl

theorem normalize_bit (n : WvIPNet) (i : Nat) : n.normalize.mask.bit i = decide (i < n.bits) := by
  unfold normalize
  split
  · change (ofHost (topOnes 32 n.bits)).bit i = _
    rw [bit, host_ofHost, getMsbD_topOnes n.bits_le]
  · have hzero : (default : WvIPAddr).host = 0 := rfl
    have hi : ¬ i < n.bits := by omega
    simp [bit, hzero, hi]

theorem normalize_contiguous (n : WvIPNet) : n.normalize.Contiguous :=
  ⟨n.bits, n.bits_le, fun i _ => n.normalize_bit i⟩

@[simp] theorem include_base (n b : WvIPNet) : (n.include_ b).toWvIPAddr = n.toWvIPAddr := rfl

theorem include_bit (n b : WvIPNet) {i : Nat} (hi : i < 32) :
    (n.include_ b).mask.bit i = (n.mask.bit i && b.mask.bit i && (n.baseBit i == b.baseBit i)) := by
  simp only [include_, bit_and, bit_not _ hi, bit_xor, baseBit]
  cases n.toWvIPAddr.bit i <;> cases b.toWvIPAddr.bit i <;> rfl

theorem includes_iff (n addr : WvIPNet) : n.includes addr = true ↔
    ∀ i < 32, n.mask.bit i = true → addr.baseBit i = n.baseBit i ∧ addr.mask.bit i = true := by
  simp only [includes, base, netmask, network, Bool.and_eq_true, decide_eq_true_eq, eq_iff_bit,
    bit_and, baseBit]
  constructor
  · rintro ⟨hbase, hmask⟩ i hi hn
    have h1 := hbase i hi
    have h2 := hmask i hi
    simp only [hn, Bool.and_true] at h1 h2
    exact ⟨h1, h2⟩
  · intro h
    constructor <;> intro i hi
    all_goals
      cases hn : n.mask.bit i with
      | false => simp
      | true => simp [h i hi hn]

theorem includes_addr (n : WvIPNet) (x : WvIPAddr) : n.includes x = true ↔
    ∀ i < 32, n.mask.bit i = true → x.bit i = n.baseBit i := by
  rw [includes_iff]
  have hmask : ∀ i < 32, (ofBits x).mask.bit i = true := by
    intro i hi
    change (ofHost (topOnes 32 32)).bit i = true
    rw [bit, host_ofHost, getMsbD_topOnes le_rfl, decide_eq_true hi]
  constructor
  · intro h i hi hn
    exact (h i hi hn).1
  · intro h i hi hn
    exact ⟨h i hi hn, hmask i hi⟩

/-- The networks have the same bit, and both masks ask for it. -/
def Shared (n b : WvIPNet) (i : Nat) : Prop :=
  n.mask.bit i = true ∧ b.mask.bit i = true ∧ n.baseBit i = b.baseBit i

theorem shared_iff (n b : WvIPNet) {i : Nat} (hi : i < 32) :
    (n.include_ b).mask.bit i = true ↔ n.Shared b i := by
  simp [include_bit n b hi, Shared, and_assoc]

/-- The network is contiguous and has all addresses of both. -/
def Covers (m n b : WvIPNet) : Prop :=
  m.Contiguous ∧ (∀ x : WvIPAddr, n.includes x = true → m.includes x = true) ∧
    ∀ x : WvIPAddr, b.includes x = true → m.includes x = true

theorem includes_of_shared {n b : WvIPNet} {k : Nat}
    (h : ∀ i < 32, i < k → n.Shared b i) {m : WvIPNet} (hbase : m.toWvIPAddr = n.toWvIPAddr)
    (hmask : ∀ i, m.mask.bit i = decide (i < k)) (x : WvIPAddr)
    (hx : n.includes x = true ∨ b.includes x = true) : m.includes x = true := by
  rw [includes_addr]
  intro i hi hm
  rw [hmask, decide_eq_true_eq] at hm
  obtain ⟨hn, hb, hnb⟩ := h i hi hm
  rw [baseBit, hbase]
  rcases hx with hx | hx
  · exact (includes_addr n x).mp hx i hi hn
  · exact ((includes_addr b x).mp hx i hi hb).trans hnb.symm

theorem exists_other {n b : WvIPNet} (h : ¬ n.Shared b 0) :
    ∃ x : WvIPAddr, (n.includes x = true ∨ b.includes x = true) ∧ x.bit 0 ≠ n.baseBit 0 := by
  by_cases hn : n.mask.bit 0 = true
  · by_cases hnb : n.baseBit 0 = b.baseBit 0
    · have hb : ¬ b.mask.bit 0 = true := fun hb => h ⟨hn, hb, hnb⟩
      refine ⟨b.toWvIPAddr.flip, Or.inr ?_, ?_⟩
      · rw [includes_addr]
        intro i _ hi
        cases i with
        | zero => exact absurd hi hb
        | succ i => simp
      · simpa [baseBit] using hnb.symm
    · refine ⟨b.toWvIPAddr, Or.inr ?_, fun hx => hnb hx.symm⟩
      rw [includes_addr]
      intro i _ _
      rfl
  · refine ⟨n.toWvIPAddr.flip, Or.inl ?_, by simp [baseBit]⟩
    rw [includes_addr]
    intro i _ hi
    cases i with
    | zero => exact absurd hi hn
    | succ i => simp

theorem include_normalize_iff (n b : WvIPNet) :
    Covers (n.include_ b).normalize n b ↔ (n.Shared b 1 → n.Shared b 0) := by
  rw [← shared_iff n b (by omega), ← shared_iff n b (by omega), ← bits_iff]
  constructor
  · rintro ⟨-, hn, hb⟩
    rw [bits_iff]
    intro h1
    by_contra h0
    rw [shared_iff n b (by omega)] at h0
    obtain ⟨x, hx, hne⟩ := exists_other h0
    have hm : (n.include_ b).normalize.includes x = true := hx.elim (hn x) (hb x)
    apply hne
    rw [includes_addr] at hm
    have hpos : 0 < (n.include_ b).bits := by
      obtain ⟨k, hk, hones, hstop⟩ := exists_run (n.include_ b).mask.host
      rw [bits_eq hk hones hstop]
      by_contra hzero
      have hk0 : k = 0 := by omega
      subst hk0
      exact absurd h1 (by simpa [bit] using hstop)
    have hbit := hm 0 (by omega) (by rw [normalize_bit, decide_eq_true hpos])
    simpa [baseBit] using hbit
  · intro hrun
    have hshared : ∀ i < 32, i < (n.include_ b).bits → n.Shared b i := by
      intro i hi hlt
      rw [← shared_iff n b hi]
      exact hrun.ones i hlt
    have hincl := includes_of_shared hshared (m := (n.include_ b).normalize)
      (normalize_base _) (normalize_bit _)
    exact ⟨normalize_contiguous _, fun x hx => hincl x (Or.inl hx), fun x hx => hincl x (Or.inr hx)⟩

/-- `include` with `normalize`, and `bits`, on any two networks. -/
theorem include_bits_iff (n b : WvIPNet) :
    (Covers (n.include_ b).normalize n b ↔ (n.Shared b 1 → n.Shared b 0)) ∧
      (IsLeadingOnes n.mask.host n.bits ↔ (n.mask.bit 1 = true → n.mask.bit 0 = true)) :=
  ⟨include_normalize_iff n b, bits_iff n⟩

/-- When 138.0.0.0/8 is included in 10.0.0.0/8 the mask becomes 127.0.0.0, for which `bits` is
seven. Once it has been normalized the network does not have 138.0.0.0. -/
theorem not_include_bits :
    ¬ ((∀ n b : WvIPNet, Covers (n.include_ b).normalize n b) ∧
      ∀ n : WvIPNet, IsLeadingOnes n.mask.host n.bits) := by
  rintro ⟨hcovers, -⟩
  have h := (hcovers (ofBits (.ofHost 0x0A000000) 8) (ofBits (.ofHost 0x8A000000) 8)).2.2
    (.ofHost 0x8A000000)
  exact absurd (h (by decide)) (by decide)

end WvIPNet

end WvStreams
