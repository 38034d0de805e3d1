import WvStreams.IPStreams.Addr
import WvStreams.Strings.WvString

/-!
# Equality and hash values of addresses

`operator==` asks the comparator of its left side, and that one may ask the right side's comparator
once. Two addresses of one class are compared with all they have, two of different classes by the
four bytes of the IP address alone (`beq_iff`). So a plain address is equal to networks with
different masks (`trans_iff`), and to a network whose hash value has that of its mask added
(`hash_iff`).
-/

namespace WvStreams

open List BitVec

def WvIPAddr.raw (a : WvIPAddr) : List (BitVec 8) := ofFn a.binaddr

structure WvIPPortAddr extends WvIPAddr where
  port : BitVec 16

/-- The name is that of a file, and an empty one has been replaced by `/`. -/
structure WvUnixAddr where
  sockname : Str
  nonempty : sockname ≠ []

/-- An address with its class. -/
inductive WvAddr where
  | ip (a : WvIPAddr)
  | net (n : WvIPNet)
  | port (p : WvIPPortAddr)
  | unix (u : WvUnixAddr)

namespace WvUnixAddr

def raw (u : WvUnixAddr) : List (BitVec 8) := u.sockname.map UInt8.toBitVec

def ofString (sockname : WvString) : WvUnixAddr :=
  if h : sockname.not then ⟨bytes "/", by decide⟩
  else ⟨sockname.getD [], fun hnil => h (WvString.not_eq_true.mpr hnil)⟩

end WvUnixAddr

namespace WvAddr

/-- What `type()` tells apart. `WvUnixAddr` has that of `WvAddr`. -/
inductive TypeName where
  | WVADDR
  | WVIPADDR
  | WVIPNET
  | WVIPPORTADDR
  deriving DecidableEq

def type : WvAddr → TypeName
  | ip _ => .WVIPADDR
  | net _ => .WVIPNET
  | port _ => .WVIPPORTADDR
  | unix _ => .WVADDR

/-- The bytes that `rawdata` and `rawdata_len` give. It is the four of the IP address for its three
classes. -/
def rawdata : WvAddr → List (BitVec 8)
  | ip a => a.raw
  | net n => n.raw
  | port p => p.raw
  | unix u => u.raw

def rawHash (raw : List (BitVec 8)) : BitVec 32 :=
  if raw = [] then 0
  else
    let width := 32 / raw.length + 1
    raw.foldl (fun hash c => (hash <<< width) ^^^ c.setWidth 32) 0

def WvHash : WvAddr → BitVec 32
  | ip a => rawHash (ip a).rawdata
  | net n => rawHash (net n).rawdata + rawHash (ip n.mask).rawdata
  | port p => rawHash (port p).rawdata + p.port.setWidth 32
  | unix u => rawHash (unix u).rawdata

def rawComparator (self a2 : WvAddr) : Bool := self.type = a2.type && self.rawdata = a2.rawdata

def ipComparator (self a2 : WvAddr) (again : Option Bool) : Bool :=
  if a2.type = .WVIPADDR then self.rawdata = a2.rawdata
  else again.getD (self.rawdata = a2.rawdata)

def netComparator (n : WvIPNet) (a2 : WvAddr) (again : Option Bool) : Bool :=
  match a2 with
  | net n2 => ipComparator (net n) a2 none && n.mask = n2.mask
  | a2 => again.getD (ipComparator (net n) a2 none)

def portComparator (p : WvIPPortAddr) (a2 : WvAddr) (again : Option Bool) : Bool :=
  match a2 with
  | port p2 => ipComparator (port p) a2 none && p.port = p2.port
  | a2 => again.getD (ipComparator (port p) a2 none)

def dispatch (self a2 : WvAddr) (again : Option Bool) : Bool :=
  match self with
  | ip a => ipComparator (ip a) a2 again
  | net n => netComparator n a2 again
  | port p => portComparator p a2 again
  | unix u => rawComparator (unix u) a2

def comparator (self a2 : WvAddr) (first_pass : Bool) : Bool :=
  dispatch self a2 (if first_pass then some (dispatch a2 self none) else none)

/-- `operator==`. -/
instance : BEq WvAddr := ⟨fun self a2 => self.comparator a2 true⟩

theorem raw_inj {a b : WvIPAddr} : a.raw = b.raw ↔ a = b := by
  rw [WvIPAddr.raw, WvIPAddr.raw, ofFn_inj]
  constructor
  · exact fun h => congrArg WvIPAddr.mk h
  · exact fun h => h ▸ rfl

theorem net_ext_iff {n n2 : WvIPNet} :
    n = n2 ↔ n.toWvIPAddr = n2.toWvIPAddr ∧ n.mask = n2.mask := by
  cases n
  cases n2
  simp

theorem port_ext_iff {p p2 : WvIPPortAddr} :
    p = p2 ↔ p.toWvIPAddr = p2.toWvIPAddr ∧ p.port = p2.port := by
  cases p
  cases p2
  simp

theorem sockname_inj {u u2 : WvUnixAddr} : u.raw = u2.raw ↔ u = u2 := by
  constructor
  · intro h
    have hname := map_injective_iff.mpr (fun _ _ => UInt8.toBitVec_inj.mp) h
    cases u
    cases u2
    cases hname
    rfl
  · exact fun h => h ▸ rfl

/-- The IP address, of all but the names of sockets. -/
def ipaddr : WvAddr → Option WvIPAddr
  | ip a => some a
  | net n => some n.toWvIPAddr
  | port p => some p.toWvIPAddr
  | unix _ => none

theorem beq_iff (a b : WvAddr) :
    (a == b) = true ↔ a = b ∨ (a.type ≠ b.type ∧ a.ipaddr = b.ipaddr) := by
  change comparator a b true = true ↔ _
  cases a <;> cases b
  all_goals
    simp [comparator, dispatch, ipComparator, netComparator, portComparator, rawComparator, type,
      rawdata, ipaddr, raw_inj, sockname_inj, net_ext_iff, port_ext_iff]
  case unix.unix => exact decide_eq_true_iff.trans sockname_inj
  all_goals exact eq_comm

/-- `b` is equal to `a` and `c`, which are of one class and not the same. -/
def Bridges (a b c : WvAddr) : Prop :=
  a.type = c.type ∧ a ≠ c ∧ b.type ≠ a.type ∧ a.ipaddr = b.ipaddr ∧ b.ipaddr = c.ipaddr

theorem trans_iff (a b c : WvAddr) :
    ((a == b) = true → (b == c) = true → (a == c) = true) ↔ ¬ Bridges a b c := by
  simp only [beq_iff]
  constructor
  · rintro h ⟨hac, hne, hba, hab, hbc⟩
    have hb : b.type ≠ c.type := fun hb => hba (hb.trans hac.symm)
    rcases h (Or.inr ⟨Ne.symm hba, hab⟩) (Or.inr ⟨hb, hbc⟩) with h | ⟨h, -⟩
    · exact hne h
    · exact h hac
  · rintro h (rfl | ⟨hab, hipab⟩) hbc
    · exact hbc
    · rcases hbc with rfl | ⟨hbc, hipbc⟩
      · exact Or.inr ⟨hab, hipab⟩
      · by_cases hac : a.type = c.type
        · left
          by_contra hne
          exact h ⟨hac, hne, Ne.symm hab, hipab, hipbc⟩
        · exact Or.inr ⟨hac, hipab.trans hipbc⟩

theorem hash_step (h : BitVec 32) (c : BitVec 8) :
    ((h <<< 9) ^^^ c.setWidth 32).toNat = (512 * h.toNat + c.toNat) % 2 ^ 32 := by
  have hbit : ∀ i, ((h <<< 9) ^^^ c.setWidth 32).getLsbD i =
      ((h <<< 9) + c.setWidth 32).getLsbD i := by
    have hdisj : (h <<< 9) &&& c.setWidth 32 = 0#32 := by
      apply eq_of_getLsbD_eq
      intro i hi
      by_cases h9 : i < 9
      · simp [h9]
      · simp [getLsbD_of_ge c i (by omega)]
    intro i
    rw [add_eq_or_of_and_eq_zero _ _ hdisj]
    have hi := congrArg (fun v => v.getLsbD i) hdisj
    simp only [getLsbD_and, getLsbD_zero] at hi
    rw [getLsbD_xor, getLsbD_or]
    revert hi
    cases (h <<< 9).getLsbD i <;> cases (c.setWidth 32).getLsbD i <;> simp
  rw [eq_of_getLsbD_eq fun i _ => hbit i, toNat_add, toNat_shiftLeft,
    toNat_setWidth, Nat.shiftLeft_eq, Nat.mod_add_mod, Nat.add_mod_mod, Nat.mul_comm]

/-- The hash value of an IP address: the bytes at a distance of nine bits. -/
def spread (a : WvIPAddr) : Nat := a.raw.foldl (fun n c => 512 * n + c.toNat) 0 % 2 ^ 32

theorem rawHash_raw (a : WvIPAddr) : (rawHash a.raw).toNat = spread a := by
  have hraw : a.raw = [a.binaddr 0, a.binaddr 1, a.binaddr 2, a.binaddr 3] := rfl
  have hzero : (0 : BitVec 32).toNat = 0 := rfl
  rw [spread, hraw, rawHash, if_neg (by simp)]
  simp only [length_cons, length_nil, foldl_cons, foldl_nil]
  rw [hash_step, hash_step, hash_step, hash_step, hzero]
  omega

/-- What a class adds to the hash value of the IP address. -/
def addend : WvAddr → Nat
  | ip _ => 0
  | net n => spread n.mask
  | port p => p.port.toNat
  | unix _ => 0

theorem hash_eq {a : WvAddr} {x : WvIPAddr} (h : a.ipaddr = some x) :
    a.WvHash.toNat = (spread x + a.addend) % 2 ^ 32 := by
  cases a with
  | ip a =>
    cases h
    have hlt := (rawHash x.raw).isLt
    rw [rawHash_raw] at hlt
    rw [WvHash, rawdata, rawHash_raw, addend, Nat.add_zero, Nat.mod_eq_of_lt hlt]
  | net n =>
    cases h
    rw [WvHash, toNat_add, rawdata, rawdata, rawHash_raw, rawHash_raw, addend]
  | port p =>
    cases h
    have hport : (p.port.setWidth 32).toNat = p.port.toNat := by
      rw [toNat_setWidth, Nat.mod_eq_of_lt (by have := p.port.isLt; omega)]
    rw [WvHash, toNat_add, rawdata, rawHash_raw, hport, addend]
  | unix u => cases h

theorem addend_lt (a : WvAddr) : a.addend < 2 ^ 32 := by
  cases a with
  | ip a => exact Nat.two_pow_pos 32
  | net n =>
    rw [addend, ← rawHash_raw]
    exact isLt _
  | port p =>
    have := p.port.isLt
    rw [addend]
    omega
  | unix u => exact Nat.two_pow_pos 32

/-- The addresses are equal although they are of different classes, and these add different values
to the hash value. -/
def Clash (a b : WvAddr) : Prop :=
  a.type ≠ b.type ∧ a.ipaddr = b.ipaddr ∧ a.addend ≠ b.addend

theorem type_of_no_ipaddr {a : WvAddr} (h : a.ipaddr = none) : a.type = .WVADDR := by
  cases a with
  | unix u => rfl
  | _ => cases h

theorem exists_ipaddr {a b : WvAddr} (htype : a.type ≠ b.type) (h : a.ipaddr = b.ipaddr) :
    ∃ x, a.ipaddr = some x ∧ b.ipaddr = some x := by
  cases ha : a.ipaddr with
  | some x => exact ⟨x, rfl, h ▸ ha⟩
  | none =>
    rw [ha] at h
    exact absurd ((type_of_no_ipaddr ha).trans (type_of_no_ipaddr h.symm).symm) htype

theorem hash_iff (a b : WvAddr) : ((a == b) = true → a.WvHash = b.WvHash) ↔ ¬ Clash a b := by
  rw [beq_iff]
  constructor
  · rintro h ⟨htype, hip, hne⟩
    obtain ⟨x, ha, hb⟩ := exists_ipaddr htype hip
    have heq := congrArg BitVec.toNat (h (Or.inr ⟨htype, hip⟩))
    rw [hash_eq ha, hash_eq hb] at heq
    have hlta := a.addend_lt
    have hltb := b.addend_lt
    omega
  · rintro h (rfl | ⟨htype, hip⟩)
    · rfl
    · obtain ⟨x, ha, hb⟩ := exists_ipaddr htype hip
      have hadd : a.addend = b.addend := by
        by_contra hne
        exact h ⟨htype, hip, hne⟩
      apply eq_of_toNat_eq
      rw [hash_eq ha, hash_eq hb, hadd]

/-- What a hash table relies on, for three addresses. -/
structure Sound (a b c : WvAddr) : Prop where
  refl : (a == a) = true
  symm : (a == b) = (b == a)
  trans : (a == b) = true → (b == c) = true → (a == c) = true
  hash : (a == b) = true → a.WvHash = b.WvHash

theorem beq_self (a : WvAddr) : (a == a) = true := (beq_iff a a).mpr (Or.inl rfl)

theorem beq_comm (a b : WvAddr) : (a == b) = (b == a) := by
  rw [Bool.eq_iff_iff, beq_iff, beq_iff, eq_comm, ne_comm, eq_comm (a := a.ipaddr)]

theorem sound_iff (a b c : WvAddr) : Sound a b c ↔ ¬ Bridges a b c ∧ ¬ Clash a b := by
  rw [← trans_iff, ← hash_iff]
  exact ⟨fun h => ⟨h.trans, h.hash⟩, fun h => ⟨beq_self a, beq_comm a b, h.1, h.2⟩⟩

/-- 10.0.0.1 is equal to the network 10.0.0.1/8 and to 10.0.0.1/16, which are not equal. -/
theorem not_sound : ¬ ∀ a b c : WvAddr, Sound a b c := by
  intro h
  have htrans := (h (net (.ofBits (.ofHost 0x0A000001) 8)) (ip (.ofHost 0x0A000001))
    (net (.ofBits (.ofHost 0x0A000001) 16))).trans (by decide) (by decide)
  exact absurd htrans (by decide)

end WvAddr

end WvStreams
