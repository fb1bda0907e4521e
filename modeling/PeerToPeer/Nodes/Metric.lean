import PeerToPeer.CLib.SignedChar
import PeerToPeer.Nodes.Distance

namespace PeerToPeer

open CLib

/-- The value `XORdistance` leaves in `distance` for a node with this id and distance 0. -/
def distanceTo (infoHash id : Bytes idSize) : Except Fault UInt32 := do
  let node ← xorDistance infoHash.mem ⟨id, Bytes.zero inetAddrstrlen, 0, 0⟩
  return node.distance

theorem charXor_toInt (a b : UInt8) : (charXor a b).toInt = (a ^^^ b).toInt8.toInt := by
  rw [charXor, ← Int8.toInt32_xor, Int8.toInt_toInt32, UInt8.toInt8_xor]

theorem zipWith_id {β : Type} (f : UInt8 → UInt8 → β) {a b : Bytes idSize}
    (h : a.str.length = b.str.length) :
    List.zipWith f a.str b.toList = List.zipWith f a.str b.str := by
  have hsplit : b.toList = b.str ++ b.toList.drop b.str.length := by
    conv_lhs => rw [← List.take_append_drop b.str.length b.toList]
    rw [Bytes.str, ← chars_eq_take]
  have hzip : List.zipWith f (a.str ++ []) (b.str ++ b.toList.drop b.str.length) =
      List.zipWith f a.str b.str ++ List.zipWith f [] (b.toList.drop b.str.length) :=
    List.zipWith_append h
  rw [hsplit]
  simpa using hzip

theorem xorSum_eq {a b : Bytes idSize} (h : a.str.length = b.str.length) :
    xorSum a.mem b = charSum (xors a.str b.str) := by
  have hmap : List.zipWith (fun x y => (charXor x y).toInt) a.str b.str =
      (xors a.str b.str).map fun x => x.toInt8.toInt := by
    simp only [charXor_toInt, xors, List.map_zipWith]
  rw [charSum, ← hmap, ← zipWith_id _ h]
  rfl

theorem str_length_le {a : Bytes idSize} (ha : Terminated a.mem) :
    (chars a.mem).length ≤ idSize := by
  have hlt := chars_length_lt a.mem ha
  rw [Vector.length_toList] at hlt
  exact hlt.le

theorem distanceTo_eq {a : Bytes idSize} (ha : Terminated a.mem) (id : Bytes idSize) :
    distanceTo a id = .ok (UInt32.ofInt (xorSum a.mem id)) := by
  rw [distanceTo, xorDistance_ok _ ha (str_length_le ha), ok_bind, NodeEntry.addXor,
    UInt32.zero_add]
  rfl

theorem distanceTo_ok {a b : Bytes idSize} (ha : Terminated a.mem)
    (h : a.str.length = b.str.length) :
    distanceTo a b = .ok (UInt32.ofInt (charSum (xors a.str b.str))) := by
  rw [distanceTo_eq ha, xorSum_eq h]

/-- The unsigned sum of the XORs wraps below zero. -/
def wraps (bs : List UInt8) : Nat := if lowBits bs < 128 * topBits bs then 1 else 0

theorem ofInt_charSum {bs : List UInt8} (hl : bs.length ≤ idSize) :
    ((UInt32.ofInt (charSum bs)).toNat : Int) = charSum bs + 2 ^ 32 * wraps bs := by
  have hb := charSum_bounds bs
  have heq := charSum_eq bs
  rw [idSize] at hl
  rw [UInt32.ofInt, UInt32.toNat_ofNat', wraps]
  split_ifs <;> omega

/-- The axioms of a metric at three ids, for the distances between them. -/
structure MetricAt (a b c : Bytes idSize) (ab ba bc ac : UInt32) : Prop where
  zero : ab = 0 ↔ a.str = b.str
  symm : ab = ba
  triangle : ac.toNat ≤ ab.toNat + bc.toNat

/-- The low bits by which two strings differ do not cancel out against the signs, and the way
over `b` is no shorter. -/
structure Straight (a b c : List UInt8) : Prop where
  apart : a = b ∨ lowBits (xors a b) ≠ 128 * topBits (xors a b)
  short : wraps (xors a c) < wraps (xors a b) + wraps (xors b c) ∨
    wraps (xors a c) = wraps (xors a b) + wraps (xors b c) ∧
      128 * topBits (detours a b c) ≤ lowBits (detours a b c)

/-- ASCII strings never meet a sign. -/
theorem Straight.of_ascii {a b c : List UInt8} (hab : a.length = b.length) (ha : topBits a = 0)
    (hb : topBits b = 0) (hc : topBits c = 0) : Straight a b c := by
  have hxab := topBits_xors ha hb
  constructor
  · by_cases hlow : lowBits (xors a b) = 0
    · exact Or.inl (eq_of_xors hab hlow hxab)
    · exact Or.inr (by omega)
  · right
    simp [wraps, hxab, topBits_xors hb hc, topBits_xors ha hc, topBits_detours ha hb hc]

section Axioms

variable {a b c : Bytes idSize}

theorem xors_length_le (a b : Bytes idSize) : (xors a.str b.str).length ≤ idSize := by
  have ha : a.str.length ≤ a.mem.length := (List.takeWhile_prefix _).length_le
  rw [Vector.length_toList] at ha
  rw [xors, List.length_zipWith]
  exact (Nat.min_le_left _ _).trans ha

theorem lowBits_self (as : List UInt8) : lowBits (xors as as) = 128 * topBits (xors as as) := by
  simp [xors_self, lowBits, topBits]

/-- A distance is zero exactly when low bits and signs cancel out. -/
theorem zero_axiom_iff : UInt32.ofInt (charSum (xors a.str b.str)) = 0 ↔
    lowBits (xors a.str b.str) = 128 * topBits (xors a.str b.str) := by
  have hval := ofInt_charSum (xors_length_le a b)
  have heq := charSum_eq (xors a.str b.str)
  have hb := charSum_bounds (xors a.str b.str)
  have hl : (xors a.str b.str).length ≤ 36 := xors_length_le a b
  rw [← UInt32.toNat_inj, UInt32.toNat_zero]
  rw [wraps] at hval
  split_ifs at hval <;> omega

theorem triangle_axiom_iff (hab : a.str.length = b.str.length) (hbc : b.str.length = c.str.length) :
    (UInt32.ofInt (charSum (xors a.str c.str))).toNat ≤
        (UInt32.ofInt (charSum (xors a.str b.str))).toNat +
          (UInt32.ofInt (charSum (xors b.str c.str))).toNat ↔
      wraps (xors a.str c.str) < wraps (xors a.str b.str) + wraps (xors b.str c.str) ∨
        wraps (xors a.str c.str) = wraps (xors a.str b.str) + wraps (xors b.str c.str) ∧
          128 * topBits (detours a.str b.str c.str) ≤ lowBits (detours a.str b.str c.str) := by
  have hsum := charSum_triangle a.str b.str c.str hab hbc
  have hdet := charSum_eq (detours a.str b.str c.str)
  have hac := ofInt_charSum (xors_length_le a c)
  have hab' := ofInt_charSum (xors_length_le a b)
  have hbc' := ofInt_charSum (xors_length_le b c)
  have bac := charSum_bounds (xors a.str c.str)
  have bab := charSum_bounds (xors a.str b.str)
  have bbc := charSum_bounds (xors b.str c.str)
  have lac : (xors a.str c.str).length ≤ 36 := xors_length_le a c
  have lab : (xors a.str b.str).length ≤ 36 := xors_length_le a b
  have lbc : (xors b.str c.str).length ≤ 36 := xors_length_le b c
  omega

end Axioms

/-- For ids of one length the distances exist, and they obey the axioms of a metric exactly when
the three ids are straight. -/
theorem xorDistance_metric_iff (a b c : Bytes idSize) (ha : Terminated a.mem)
    (hb : Terminated b.mem) (hab : a.str.length = b.str.length)
    (hbc : b.str.length = c.str.length) :
    ∃ ab ba bc ac, distanceTo a b = .ok ab ∧ distanceTo b a = .ok ba ∧ distanceTo b c = .ok bc ∧
      distanceTo a c = .ok ac ∧ (MetricAt a b c ab ba bc ac ↔ Straight a.str b.str c.str) := by
  refine ⟨_, _, _, _, distanceTo_ok ha hab, distanceTo_ok hb hab.symm, distanceTo_ok hb hbc,
    distanceTo_ok ha (hab.trans hbc), ?_⟩
  have hzero := @zero_axiom_iff a b
  have htriangle := triangle_axiom_iff hab hbc
  constructor
  · intro h
    refine ⟨?_, htriangle.mp h.triangle⟩
    by_cases hcancel : lowBits (xors a.str b.str) = 128 * topBits (xors a.str b.str)
    · exact Or.inl (h.zero.mp (hzero.mpr hcancel))
    · exact Or.inr hcancel
  · intro h
    refine ⟨?_, by rw [xors_comm], htriangle.mpr h.short⟩
    constructor
    · intro h0
      exact h.apart.resolve_right (not_not.mpr (hzero.mp h0))
    · intro heq
      rw [hzero, heq]
      exact lowBits_self b.str

/-- Three ids of letters. -/
theorem xorDistance_metric_letters : ∃ ab ba bc ac,
    distanceTo (Bytes.padded idSize [97, 98]) (Bytes.padded idSize [98, 97]) = .ok ab ∧
      distanceTo (Bytes.padded idSize [98, 97]) (Bytes.padded idSize [97, 98]) = .ok ba ∧
      distanceTo (Bytes.padded idSize [98, 97]) (Bytes.padded idSize [99, 99]) = .ok bc ∧
      distanceTo (Bytes.padded idSize [97, 98]) (Bytes.padded idSize [99, 99]) = .ok ac ∧
      MetricAt (Bytes.padded idSize [97, 98]) (Bytes.padded idSize [98, 97])
        (Bytes.padded idSize [99, 99]) ab ba bc ac := by
  obtain ⟨ab, ba, bc, ac, hab, hba, hbc, hac, hiff⟩ := xorDistance_metric_iff
    (Bytes.padded idSize [97, 98]) (Bytes.padded idSize [98, 97]) (Bytes.padded idSize [99, 99])
    (by decide) (by decide) (by decide) (by decide)
  refine ⟨ab, ba, bc, ac, hab, hba, hbc, hac, hiff.mpr ?_⟩
  exact Straight.of_ascii (by decide) (by decide) (by decide) (by decide)

/-- The XORs 1 and -1 cancel out: two different ids at distance zero. -/
theorem distinct_at_distance_zero :
    distanceTo (Bytes.padded idSize [2, 128]) (Bytes.padded idSize [3, 127]) = .ok 0 ∧
      (Bytes.padded idSize [2, 128]).str ≠ (Bytes.padded idSize [3, 127]).str ∧
      ∀ c ba bc ac, ¬ MetricAt (Bytes.padded idSize [2, 128]) (Bytes.padded idSize [3, 127]) c
        0 ba bc ac := by
  have hne : (Bytes.padded idSize [2, 128]).str ≠ (Bytes.padded idSize [3, 127]).str := by decide
  refine ⟨?_, hne, ?_⟩
  · rw [distanceTo_ok (by decide) (by decide)]
    decide
  · intro c ba bc ac h
    exact hne (h.zero.mp rfl)

end PeerToPeer
