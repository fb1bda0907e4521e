import PeerToPeer.CLib.Bytes
import Mathlib.Data.Nat.Bitwise

namespace PeerToPeer.CLib

/-- The low seven bits of the bytes, summed up. -/
def lowBits (bs : List UInt8) : Nat := (bs.map fun b => b.toNat % 128).sum

/-- How many of the bytes lie above 127. -/
def topBits (bs : List UInt8) : Nat := (bs.map fun b => b.toNat / 128).sum

/-- The bytes as signed `char`s, summed up. -/
def charSum (bs : List UInt8) : Int := (bs.map fun b => b.toInt8.toInt).sum

theorem signedChar_eq (b : UInt8) : b.toInt8.toInt = (b.toNat % 128 : Nat) - 128 * (b.toNat / 128 : Nat) := by
  have hb := b.toNat_lt
  have h : b.toInt8.toInt = (b.toNat : Int).bmod (2 ^ 8) := BitVec.toInt_eq_toNat_bmod _
  rw [h, Int.bmod_def]
  split_ifs <;> omega

theorem charSum_eq (bs : List UInt8) : charSum bs = lowBits bs - 128 * topBits bs := by
  induction bs with
  | nil => rfl
  | cons b bs ih =>
    simp only [charSum, lowBits, topBits, List.map_cons, List.sum_cons, signedChar_eq] at ih ⊢
    omega

theorem charSum_bounds (bs : List UInt8) :
    -(128 * bs.length) ≤ charSum bs ∧ charSum bs ≤ 128 * bs.length := by
  induction bs with
  | nil => exact ⟨Int.le_refl _, Int.le_refl _⟩
  | cons b bs ih =>
    have hb := b.toNat_lt
    simp only [charSum, List.map_cons, List.sum_cons, List.length_cons, signedChar_eq] at ih ⊢
    omega

theorem nat_add_eq_xor (k a b : Nat) (ha : a < 2 ^ k) : a + b = (a ^^^ b) + 2 * (a &&& b) := by
  induction k generalizing a b with
  | zero =>
    obtain rfl := Nat.lt_one_iff.mp ha
    simp
  | succ k ih =>
    rw [Nat.pow_succ] at ha
    have hhalf := ih (a / 2) (b / 2) (by omega)
    have hxor := Nat.xor_div_two (a := a) (b := b)
    have hand := Nat.and_div_two (a := a) (b := b)
    have hxor' := Nat.xor_mod_two_eq (m := a) (n := b)
    have hand' := Nat.and_mod_two_eq_one (a := a) (b := b)
    omega

/-- In two's complement the carries of a sum are the common bits. -/
theorem signedChar_add (a b : UInt8) :
    a.toInt8.toInt + b.toInt8.toInt = (a ^^^ b).toInt8.toInt + 2 * (a &&& b).toInt8.toInt := by
  have ha := a.toNat_lt
  have hsum := nat_add_eq_xor 8 a.toNat b.toNat ha
  have htop := nat_add_eq_xor 1 (a.toNat / 2 ^ 7) (b.toNat / 2 ^ 7) (by omega)
  rw [← Nat.xor_div_two_pow, ← Nat.and_div_two_pow] at htop
  simp only [signedChar_eq, UInt8.toNat_xor, UInt8.toNat_and]
  omega

/-- The byte-wise XORs of two strings, as far as the shorter one goes. -/
def xors (as bs : List UInt8) : List UInt8 := List.zipWith (· ^^^ ·) as bs

/-- The bits in which the middle string differs from both others. -/
def detours (as bs cs : List UInt8) : List UInt8 :=
  List.zipWith (· &&& ·) (xors as bs) (xors bs cs)

theorem xors_comm (as bs : List UInt8) : xors as bs = xors bs as :=
  List.zipWith_comm_of_comm (fun a b => UInt8.xor_comm a b)

theorem xors_self (as : List UInt8) : xors as as = List.replicate as.length 0 := by
  simp [xors]

theorem charSum_triangle (as bs cs : List UInt8) (hab : as.length = bs.length)
    (hbc : bs.length = cs.length) :
    charSum (xors as bs) + charSum (xors bs cs) =
      charSum (xors as cs) + 2 * charSum (detours as bs cs) := by
  induction as generalizing bs cs with
  | nil =>
    obtain rfl := List.eq_nil_of_length_eq_zero hab.symm
    obtain rfl := List.eq_nil_of_length_eq_zero hbc.symm
    rfl
  | cons a as ih =>
    cases bs with
    | nil => simp at hab
    | cons b bs =>
      cases cs with
      | nil => simp at hbc
      | cons c cs =>
        have hrest := ih bs cs (by simpa using hab) (by simpa using hbc)
        have hchar := signedChar_add (a ^^^ b) (b ^^^ c)
        have hskip : a ^^^ b ^^^ (b ^^^ c) = a ^^^ c := by
          rw [UInt8.xor_assoc, ← UInt8.xor_assoc b b c, UInt8.xor_self, UInt8.zero_xor]
        rw [hskip] at hchar
        simp only [charSum, xors, detours, List.zipWith_cons_cons, List.map_cons,
          List.sum_cons] at hrest ⊢
        omega

theorem topBits_eq_zero_iff {bs : List UInt8} : topBits bs = 0 ↔ ∀ b ∈ bs, b.toNat < 128 := by
  induction bs with
  | nil => simp [topBits]
  | cons b bs ih =>
    simp only [topBits, List.map_cons, List.sum_cons, List.forall_mem_cons] at ih ⊢
    rw [← ih]
    omega

theorem topBits_zipWith {f : UInt8 → UInt8 → UInt8}
    (hf : ∀ a b, a.toNat < 128 → b.toNat < 128 → (f a b).toNat < 128) {as bs : List UInt8}
    (ha : topBits as = 0) (hb : topBits bs = 0) : topBits (List.zipWith f as bs) = 0 := by
  rw [topBits_eq_zero_iff] at *
  intro x hx
  obtain ⟨i, hi, rfl⟩ := List.mem_iff_getElem.mp hx
  rw [List.length_zipWith] at hi
  rw [List.getElem_zipWith]
  exact hf _ _ (ha _ (List.getElem_mem _)) (hb _ (List.getElem_mem _))

theorem topBits_xors {as bs : List UInt8} (ha : topBits as = 0) (hb : topBits bs = 0) :
    topBits (xors as bs) = 0 := by
  apply topBits_zipWith _ ha hb
  intro a b ha hb
  rw [UInt8.toNat_xor]
  exact Nat.xor_lt_two_pow (n := 7) ha hb

theorem topBits_detours {as bs cs : List UInt8} (ha : topBits as = 0) (hb : topBits bs = 0)
    (hc : topBits cs = 0) : topBits (detours as bs cs) = 0 := by
  apply topBits_zipWith _ (topBits_xors ha hb) (topBits_xors hb hc)
  intro a b _ hb
  rw [UInt8.toNat_and]
  exact Nat.and_lt_two_pow (n := 7) _ hb

theorem eq_of_xors {as bs : List UInt8} (hl : as.length = bs.length)
    (hlow : lowBits (xors as bs) = 0) (htop : topBits (xors as bs) = 0) : as = bs := by
  induction as generalizing bs with
  | nil => exact (List.eq_nil_of_length_eq_zero hl.symm).symm
  | cons a as ih =>
    cases bs with
    | nil => simp at hl
    | cons b bs =>
      simp only [lowBits, topBits, xors, List.zipWith_cons_cons, List.map_cons, List.sum_cons,
        Nat.add_eq_zero_iff] at hlow htop
      have hhead : a ^^^ b = 0 := by
        apply UInt8.toNat_inj.mp
        rw [UInt8.toNat_zero]
        omega
      rw [UInt8.xor_eq_zero_iff.mp hhead, ih (by simpa using hl) hlow.2 htop.2]

end PeerToPeer.CLib
