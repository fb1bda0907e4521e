import PeerToPeer.Peers.Contents
import PeerToPeer.Transition.TwoRuns

namespace PeerToPeer

open CLib Transition

abbrev TableMemory := Fin maxPeerBuckets → BucketMemory

inductive TableOp where
  | set (key : CString) (data : Peer)
  | get (key : CString)

/-- What one call does for its caller: the buckets whose list became longer, or the list the
lookup points to. -/
inductive TableResult where
  | stored (buckets : List (Fin maxPeerBuckets))
  | found (bucket : Option (List Peer))
  deriving DecidableEq

/-- A table, with the home buckets of the `set_peer` calls that made it. -/
structure TableRun where
  past : List (Fin maxPeerBuckets)
  table : PeerTable

def grown (t t' : PeerTable) : List (Fin maxPeerBuckets) :=
  (List.finRange maxPeerBuckets).filter fun i => t[i].len < t'[i].len

def tableStep (s : TableRun) : TableOp → Except Fault (TableResult × TableRun)
  | .set key data => do
      let table ← setPeer s.table key.mem data
      return (.stored (grown s.table table), ⟨s.past ++ [homeOf key.chars], table⟩)
  | .get key => do
      let bucket ← getPeerBucket s.table key.mem
      return (.found (bucket.map fun i => s.table[i].peers), s)

/-- What a sequence of calls on a fresh table shows, when `malloc` returned `mem`. -/
def tableTrace (mem : TableMemory) (ops : List TableOp) : List (Except Fault TableResult) :=
  trace tableStep ⟨[], initPeerTable mem⟩ ops

/-- Garbage that makes a bucket look occupied by another bucket's key, with a bucket left to
probe. -/
@[mk_iff] structure Foreign (mem : TableMemory) (i : Fin maxPeerBuckets) : Prop where
  active : (mem i).active = true
  key : (mem i).key ≠ keyOf i
  room : i.val + 1 < maxPeerBuckets

instance (mem : TableMemory) (i : Fin maxPeerBuckets) : Decidable (Foreign mem i) :=
  decidable_of_iff _ (foreign_iff mem i).symm

/-- Garbage that the scan of a lookup runs through on its way to the home index. -/
def Scanned (mem : TableMemory) (i : Fin maxPeerBuckets) : Prop :=
  (mem i).key.toNat ≤ i.val ∨ (mem i).key.toNat = 4294967295

instance (mem : TableMemory) (i : Fin maxPeerBuckets) : Decidable (Scanned mem i) :=
  inferInstanceAs (Decidable (_ ∨ _))

/-- The bucket has taken a peer as the home of a call. -/
def Owned (mem : TableMemory) (past : List (Fin maxPeerBuckets)) (i : Fin maxPeerBuckets) :
    Prop :=
  i ∈ past ∧ ¬ Foreign mem i

/-- A call has probed the bucket, its own home being foreign. -/
def Probed (mem : TableMemory) (past : List (Fin maxPeerBuckets)) (i : Fin maxPeerBuckets) :
    Prop :=
  ∃ j ∈ past, j.val + 1 = i.val ∧ Foreign mem j

/-- The bucket has taken a peer, of its own or of the bucket in front of it. -/
def Used (mem : TableMemory) (past : List (Fin maxPeerBuckets)) (i : Fin maxPeerBuckets) :
    Prop :=
  Owned mem past i ∨ (mem i).active = false ∧ Probed mem past i

instance (mem : TableMemory) (past : List (Fin maxPeerBuckets)) (i : Fin maxPeerBuckets) :
    Decidable (Owned mem past i) :=
  inferInstanceAs (Decidable (_ ∧ _))

instance (mem : TableMemory) (past : List (Fin maxPeerBuckets)) (i : Fin maxPeerBuckets) :
    Decidable (Probed mem past i) :=
  inferInstanceAs (Decidable (∃ j ∈ past, _ ∧ _))

instance (mem : TableMemory) (past : List (Fin maxPeerBuckets)) (i : Fin maxPeerBuckets) :
    Decidable (Used mem past i) :=
  inferInstanceAs (Decidable (_ ∨ _ ∧ _))

/-- The bucket a call with home bucket `i` stores its peer in. -/
def target (mem : TableMemory) (past : List (Fin maxPeerBuckets)) (i : Fin maxPeerBuckets) :
    Option (Fin maxPeerBuckets) :=
  if Foreign mem i then
    if h : i.val + 1 < maxPeerBuckets then
      let index : Fin maxPeerBuckets := ⟨i.val + 1, h⟩
      if ¬ Used mem past index ∧ (mem index).active = false then some index else none
    else none
  else some i

theorem target_home {mem : TableMemory} {i : Fin maxPeerBuckets} (h : ¬ Foreign mem i)
    (past : List (Fin maxPeerBuckets)) : target mem past i = some i := if_neg h

theorem target_foreign {mem : TableMemory} {i : Fin maxPeerBuckets} (h : Foreign mem i)
    (past : List (Fin maxPeerBuckets)) (b : Fin maxPeerBuckets) :
    target mem past i = some b ↔
      i.val + 1 = b.val ∧ ¬ Used mem past b ∧ (mem b).active = false := by
  rw [target, if_pos h, dif_pos h.room]
  dsimp only
  constructor
  · intro hb
    split_ifs at hb with hfree
    obtain rfl := Option.some.inj hb
    exact ⟨rfl, hfree⟩
  · intro hb
    have he : (⟨i.val + 1, h.room⟩ : Fin maxPeerBuckets) = b := Fin.ext hb.1
    rw [he, if_pos hb.2]

theorem owned_snoc (mem : TableMemory) (past : List (Fin maxPeerBuckets))
    (i j : Fin maxPeerBuckets) :
    Owned mem (past ++ [i]) j ↔ Owned mem past j ∨ j = i ∧ ¬ Foreign mem i := by
  rw [Owned, Owned, List.mem_append, List.mem_singleton]
  constructor
  · rintro ⟨hj | rfl, hf⟩
    · exact Or.inl ⟨hj, hf⟩
    · exact Or.inr ⟨rfl, hf⟩
  · rintro (⟨hj, hf⟩ | ⟨rfl, hf⟩)
    · exact ⟨Or.inl hj, hf⟩
    · exact ⟨Or.inr rfl, hf⟩

theorem probed_snoc (mem : TableMemory) (past : List (Fin maxPeerBuckets))
    (i j : Fin maxPeerBuckets) :
    Probed mem (past ++ [i]) j ↔ Probed mem past j ∨ i.val + 1 = j.val ∧ Foreign mem i := by
  simp [Probed, or_and_right, exists_or]

/-- A call adds its target to the buckets in use. -/
theorem used_snoc (mem : TableMemory) (past : List (Fin maxPeerBuckets))
    (i j : Fin maxPeerBuckets) :
    Used mem (past ++ [i]) j ↔ Used mem past j ∨ target mem past i = some j := by
  by_cases hf : Foreign mem i
  · rw [target_foreign hf]
    simp only [Used, owned_snoc, probed_snoc, hf]
    tauto
  · rw [target_home hf]
    simp only [Used, owned_snoc, probed_snoc, hf, Option.some.injEq, eq_comm (a := i)]
    tauto

/-- What the calls so far leave of the memory's contents in each bucket. -/
structure Shape (mem : TableMemory) (past : List (Fin maxPeerBuckets)) (t : PeerTable) :
    Prop where
  active : ∀ i : Fin maxPeerBuckets,
    t[i].active = true ↔ (mem i).active = true ∨ Owned mem past i
  key : ∀ i : Fin maxPeerBuckets,
    t[i].key = if Used mem past i then keyOf i else (mem i).key
  len : ∀ i : Fin maxPeerBuckets, t[i].len = 0 ↔ ¬ Used mem past i

theorem shape_init (mem : TableMemory) : Shape mem [] (initPeerTable mem) := by
  have hu : ∀ i, ¬ Used mem [] i := by simp [Used, Owned, Probed]
  constructor
  · intro i
    rw [(initPeerTable_flags mem i).1]
    simp [Owned]
  · intro i
    rw [if_neg (hu i), (initPeerTable_flags mem i).2]
  · intro i
    exact iff_of_true (initPeerTable_len mem i) (hu i)

theorem Foreign.not_used {mem : TableMemory} {i : Fin maxPeerBuckets} (h : Foreign mem i)
    (past : List (Fin maxPeerBuckets)) : ¬ Used mem past i := by
  rintro (ho | ⟨ha, -⟩)
  · exact ho.2 h
  · rw [h.active] at ha
    cases ha

theorem Shape.free {mem : TableMemory} {past : List (Fin maxPeerBuckets)} {t : PeerTable}
    (hs : Shape mem past t) (j : Fin maxPeerBuckets) :
    (t[j].len = 0 ∧ t[j].active = false) ↔ (¬ Used mem past j ∧ (mem j).active = false) := by
  rw [hs.len, ← Bool.not_eq_true, ← Bool.not_eq_true, hs.active]
  simp only [Used]
  tauto

/-- Only garbage keeps a home bucket from its own key. -/
theorem Shape.foreign_of_branch {mem : TableMemory} {past : List (Fin maxPeerBuckets)}
    {t : PeerTable} (hs : Shape mem past t) {i : Fin maxPeerBuckets} (ha : t[i].active = true)
    (hk : t[i].key ≠ keyOf i) (hlt : i.val + 1 < maxPeerBuckets) : Foreign mem i := by
  have hu : ¬ Used mem past i := by
    intro hu
    rw [hs.key, if_pos hu] at hk
    exact hk rfl
  have hmem : (mem i).active = true := by
    rcases (hs.active i).mp ha with hm | ho
    · exact hm
    · exact absurd (Or.inl ho) hu
  rw [hs.key, if_neg hu] at hk
  exact ⟨hmem, hk, hlt⟩

/-- `set_peer` by its program: the home bucket, the one behind a foreign home, or nothing. -/
theorem setPeer_target {mem : TableMemory} {past : List (Fin maxPeerBuckets)} {t : PeerTable}
    (hs : Shape mem past t) (key : CString) (p : Peer) :
    setPeer t key.mem p = match target mem past (homeOf key.chars) with
      | some b => putPeer t b (t[b].active || decide (b = homeOf key.chars)) (keyOf b) p
      | none => .ok t := by
  rw [setPeer, hash_terminated key.terminated_mem, ok_bind, CString.chars_mem]
  dsimp only
  generalize homeOf key.chars = i
  by_cases hf : Foreign mem i
  · have hactive : t[i].active = true := (hs.active i).mpr (Or.inl hf.active)
    have hkey : t[i].key ≠ keyOf i := by
      rw [hs.key, if_neg (hf.not_used past)]
      exact hf.key
    rw [if_pos hactive, if_neg hkey, dif_pos hf.room, target, if_pos hf, dif_pos hf.room]
    dsimp only
    have hne : (⟨i.val + 1, hf.room⟩ : Fin maxPeerBuckets) ≠ i := by
      intro he
      have hv : i.val + 1 = i.val := congrArg Fin.val he
      omega
    split_ifs with hl hu hu
    · dsimp only
      rw [decide_eq_false hne, Bool.or_false]
    · exact absurd ((hs.free _).mp hl) hu
    · exact absurd ((hs.free _).mpr hu) hl
    · rfl
  · rw [target_home hf]
    simp only [decide_true, Bool.or_true]
    by_cases ha : t[i].active = true
    · rw [if_pos ha]
      by_cases hk : t[i].key = keyOf i
      · rw [if_pos hk, ha, hk]
      · rw [if_neg hk]
        by_cases hlt : i.val + 1 < maxPeerBuckets
        · exact absurd (hs.foreign_of_branch ha hk hlt) hf
        · rw [dif_neg hlt]
    · rw [if_neg ha]

theorem Shape.put {mem : TableMemory} {past : List (Fin maxPeerBuckets)} {t t' : PeerTable}
    (hs : Shape mem past t) {i b : Fin maxPeerBuckets} (hb : target mem past i = some b)
    {p : Peer} (h : putPeer t b (t[b].active || decide (b = i)) (keyOf b) p = .ok t') :
    Shape mem (past ++ [i]) t' := by
  obtain ⟨happ, ha, hk⟩ := putPeer_ok h
  have hown : b = i ↔ ¬ Foreign mem i := by
    by_cases hf : Foreign mem i
    · have hv := ((target_foreign hf past b).mp hb).1
      refine iff_of_false ?_ (fun hn => hn hf)
      intro he
      rw [he] at hv
      omega
    · rw [target_home hf] at hb
      exact iff_of_true (Option.some.inj hb).symm hf
  constructor
  · intro j
    rw [owned_snoc, ← hown]
    by_cases hj : j = b
    · subst hj
      rw [ha, Bool.or_eq_true, hs.active, decide_eq_true_eq]
      tauto
    · rw [happ.other j hj, hs.active]
      have hno : ¬ (j = i ∧ b = i) := fun h => hj (h.1.trans h.2.symm)
      tauto
  · intro j
    by_cases hj : j = b
    · subst hj
      rw [hk, if_pos ((used_snoc mem past i j).mpr (Or.inr hb))]
    · have hu : Used mem (past ++ [i]) j ↔ Used mem past j := by
        rw [used_snoc, hb, Option.some.injEq, eq_comm (a := b)]
        simp [hj]
      rw [happ.other j hj, hs.key]
      simp only [hu]
  · intro j
    rw [used_snoc, hb, Option.some.injEq]
    by_cases hj : j = b
    · subst hj
      rw [← PeerBucket.peers_length, happ.home]
      simp
    · rw [happ.other j hj, hs.len]
      have hne : ¬ b = j := fun he => hj he.symm
      tauto

theorem Shape.drop {mem : TableMemory} {past : List (Fin maxPeerBuckets)} {t : PeerTable}
    (hs : Shape mem past t) {i : Fin maxPeerBuckets} (hn : target mem past i = none) :
    Shape mem (past ++ [i]) t := by
  have hf : Foreign mem i := by
    by_contra hf
    rw [target_home hf] at hn
    cases hn
  have ho : ∀ j, Owned mem (past ++ [i]) j ↔ Owned mem past j := by
    intro j
    rw [owned_snoc]
    tauto
  have hu : ∀ j, Used mem (past ++ [i]) j ↔ Used mem past j := by
    intro j
    rw [used_snoc, hn]
    simp
  constructor
  · intro j
    rw [ho, hs.active]
  · intro j
    rw [hs.key]
    simp only [hu]
  · intro j
    rw [hu, hs.len]

theorem Shape.step {mem : TableMemory} {past : List (Fin maxPeerBuckets)} {t t' : PeerTable}
    (hs : Shape mem past t) {key : CString} {p : Peer} (h : setPeer t key.mem p = .ok t') :
    Shape mem (past ++ [homeOf key.chars]) t' := by
  rw [setPeer_target hs] at h
  cases hb : target mem past (homeOf key.chars) with
  | none =>
    rw [hb] at h
    obtain rfl := Except.ok.inj h
    exact hs.drop hb
  | some b =>
    rw [hb] at h
    exact hs.put hb h

theorem getPeerBucket_shape {mem : TableMemory} {past : List (Fin maxPeerBuckets)}
    {t : PeerTable} (hs : Shape mem past t) (key : CString) :
    getPeerBucket t key.mem =
      .ok (if Used mem past (homeOf key.chars) ∨ Scanned mem (homeOf key.chars)
        then some (homeOf key.chars) else none) := by
  rw [getPeerBucket, hash_terminated key.terminated_mem, ok_bind, getPeerBucketLoop_eq,
    CString.chars_mem, hs.key]
  by_cases hu : Used mem past (homeOf key.chars) <;> simp [hu, Scanned]

theorem grown_self (t : PeerTable) : grown t t = [] := by simp [grown]

theorem grown_appended {t t' : PeerTable} {b : Fin maxPeerBuckets} {p : Peer}
    (h : Appended t t' b [p]) : grown t t' = [b] := by
  have hiff : ∀ i : Fin maxPeerBuckets, t[i].len < t'[i].len ↔ i = b := by
    intro i
    by_cases hi : i = b
    · subst hi
      rw [← PeerBucket.peers_length t'[i], h.home]
      simp
    · rw [h.other i hi]
      simp [hi]
  have hone : ∀ b : Fin maxPeerBuckets,
      ((List.finRange maxPeerBuckets).filter fun i => i = b) = [b] := by decide
  rw [← hone b, grown]
  apply List.filter_congr
  intro i _
  exact decide_eq_decide.mpr (hiff i)

/-- The result of a call whose target is still empty. -/
theorem setPeer_fresh {mem : TableMemory} {past : List (Fin maxPeerBuckets)} {t : PeerTable}
    (hs : Shape mem past t) (key : CString) (p : Peer)
    (hfree : ∀ b : Fin maxPeerBuckets, target mem past (homeOf key.chars) = some b →
      t[b].len = 0) :
    ∃ t', setPeer t key.mem p = .ok t' ∧
      grown t t' = (target mem past (homeOf key.chars)).toList := by
  rw [setPeer_target hs]
  cases hb : target mem past (homeOf key.chars) with
  | none => exact ⟨t, rfl, grown_self t⟩
  | some b =>
    have hroom : t[b].len * sizeofPeer * 2 ≤ ptrdiffMax := by
      rw [hfree b hb]
      decide
    obtain ⟨t', ht'⟩ := putPeer_total t b (t[b].active || decide (b = homeOf key.chars))
      (keyOf b) p hroom
    exact ⟨t', ht', grown_appended (putPeer_ok ht').1⟩

/-- Two runs of one sequence of calls, on different memory, that have shown the same so far. -/
structure Twins (mem mem' : TableMemory) (s s' : TableRun) : Prop where
  past : s'.past = s.past
  shape : Shape mem s.past s.table
  shape' : Shape mem' s.past s'.table
  array : ∀ i : Fin maxPeerBuckets, s.table[i].array = s'.table[i].array

theorem Twins.len {mem mem' : TableMemory} {s s' : TableRun} (h : Twins mem mem' s s')
    (i : Fin maxPeerBuckets) : s.table[i].len = s'.table[i].len :=
  congrArg GrowArray.len (h.array i)

theorem Twins.used {mem mem' : TableMemory} {s s' : TableRun} (h : Twins mem mem' s s')
    (i : Fin maxPeerBuckets) : Used mem s.past i ↔ Used mem' s.past i := by
  rw [← not_iff_not, ← h.shape.len, ← h.shape'.len, h.len]

/-- The two memories lead a call to the same behaviour, after calls with the homes `past`:
for `set_peer`, both or neither occupy the home bucket with a foreign key, and if both do, the
bucket behind it is in use or both mark it alike; for `get_peer_bucket`, the bucket is in use
or its two keys are on the same side of the scan. -/
def Agrees (mem mem' : TableMemory) (past : List (Fin maxPeerBuckets)) : TableOp → Prop
  | .set key _ => (Foreign mem (homeOf key.chars) ↔ Foreign mem' (homeOf key.chars)) ∧
      (Foreign mem (homeOf key.chars) → ∀ j : Fin maxPeerBuckets,
        (homeOf key.chars).val + 1 = j.val → Used mem past j ∨
          (mem j).active = (mem' j).active)
  | .get key => Used mem past (homeOf key.chars) ∨
      (Scanned mem (homeOf key.chars) ↔ Scanned mem' (homeOf key.chars))

theorem Twins.target_eq_iff {mem mem' : TableMemory} {s s' : TableRun}
    (h : Twins mem mem' s s') (i : Fin maxPeerBuckets) :
    target mem s.past i = target mem' s.past i ↔
      (Foreign mem i ↔ Foreign mem' i) ∧ (Foreign mem i → ∀ j : Fin maxPeerBuckets,
        i.val + 1 = j.val → Used mem s.past j ∨ (mem j).active = (mem' j).active) := by
  have hne : ∀ mem, Foreign mem i → target mem s.past i ≠ some i := by
    intro mem hf he
    have hv := ((target_foreign hf s.past i).mp he).1
    omega
  by_cases hf : Foreign mem i <;> by_cases hf' : Foreign mem' i
  · simp only [hf, hf', iff_self, true_and, forall_const]
    constructor
    · intro he j hj
      by_cases hu : Used mem s.past j
      · exact Or.inl hu
      have hu' : ¬ Used mem' s.past j := fun hu' => hu ((h.used j).mpr hu')
      have hiff := target_foreign hf s.past j
      rw [he, target_foreign hf' s.past j] at hiff
      simp only [hj, hu, hu', not_false_eq_true, true_and] at hiff
      right
      cases ha : (mem j).active <;> cases ha' : (mem' j).active <;> simp [ha, ha'] at hiff ⊢
    · intro hall
      apply Option.ext
      intro b
      rw [target_foreign hf, target_foreign hf', ← h.used b]
      apply and_congr_right
      intro hj
      apply and_congr_right
      intro hu
      rcases hall b hj with hu' | ha
      · exact absurd hu' hu
      · rw [ha]
  · rw [target_home hf']
    exact iff_of_false (hne mem hf) (fun h => hf' (h.1.mp hf))
  · rw [target_home hf]
    exact iff_of_false (fun he => hne mem' hf' he.symm) (fun h => hf (h.1.mpr hf'))
  · simp [target_home hf, target_home hf', hf, hf']

/-- On buckets with equal arrays a push does the same. -/
theorem putPeer_alike {t u : PeerTable} (harr : ∀ i : Fin maxPeerBuckets, t[i].array = u[i].array)
    (b : Fin maxPeerBuckets) (a a' : Bool) (k k' : UInt32) (p : Peer) :
    (∃ f, putPeer t b a k p = .error f ∧ putPeer u b a' k' p = .error f) ∨
      ∃ t' u', putPeer t b a k p = .ok t' ∧ putPeer u b a' k' p = .ok u' ∧
        ∀ i : Fin maxPeerBuckets, t'[i].array = u'[i].array := by
  simp only [putPeer, pushPeer, harr b]
  cases u[b].array.push p with
  | error f => exact Or.inl ⟨f, rfl, rfl⟩
  | ok arr =>
    refine Or.inr ⟨_, _, rfl, rfl, ?_⟩
    intro i
    by_cases hi : i = b
    · subst hi
      simp
    · have hv : b.val ≠ i.val := fun e => hi (Fin.ext e.symm)
      have ht : (t.set b.val ⟨a, k, arr⟩ b.isLt)[i.val] = t[i.val] :=
        Vector.getElem_set_ne b.isLt i.isLt hv
      have hu : (u.set b.val ⟨a', k', arr⟩ b.isLt)[i.val] = u[i.val] :=
        Vector.getElem_set_ne b.isLt i.isLt hv
      exact (congrArg PeerBucket.array ht).trans
        ((harr i).trans (congrArg PeerBucket.array hu).symm)

theorem grown_congr {t t' u u' : PeerTable} (h : ∀ i : Fin maxPeerBuckets, t[i].len = u[i].len)
    (h' : ∀ i : Fin maxPeerBuckets, t'[i].len = u'[i].len) : grown t t' = grown u u' := by
  apply List.filter_congr
  intro i _
  rw [h, h']

theorem tableStep_set (s : TableRun) (key : CString) (p : Peer) :
    tableStep s (.set key p) = (setPeer s.table key.mem p >>= fun table =>
      .ok (.stored (grown s.table table), ⟨s.past ++ [homeOf key.chars], table⟩)) := rfl

theorem Twins.set_alike {mem mem' : TableMemory} {s s' : TableRun} (h : Twins mem mem' s s')
    (key : CString) (p : Peer)
    (he : target mem s.past (homeOf key.chars) = target mem' s.past (homeOf key.chars)) :
    Alike tableStep (Twins mem mem') s s' (.set key p) := by
  have hset : (∃ f, setPeer s.table key.mem p = .error f ∧ setPeer s'.table key.mem p = .error f)
      ∨ ∃ t t', setPeer s.table key.mem p = .ok t ∧ setPeer s'.table key.mem p = .ok t' ∧
        ∀ i : Fin maxPeerBuckets, t[i].array = t'[i].array := by
    rw [setPeer_target h.shape, setPeer_target h.shape', ← he]
    cases target mem s.past (homeOf key.chars) with
    | none => exact Or.inr ⟨_, _, rfl, rfl, h.array⟩
    | some b => exact putPeer_alike h.array b _ _ _ _ p
  rcases hset with ⟨f, hs, hs'⟩ | ⟨t, t', hs, hs', harr⟩
  · left
    exact ⟨f, by rw [tableStep_set, hs, error_bind], by rw [tableStep_set, hs', error_bind]⟩
  · right
    have hlen : ∀ i : Fin maxPeerBuckets, t[i].len = t'[i].len :=
      fun i => congrArg GrowArray.len (harr i)
    refine ⟨.stored (grown s.table t), ⟨s.past ++ [homeOf key.chars], t⟩,
      ⟨s.past ++ [homeOf key.chars], t'⟩, ?_, ?_, ?_⟩
    · rw [tableStep_set, hs, ok_bind]
    · rw [tableStep_set, hs', ok_bind, grown_congr h.len hlen, h.past]
    · exact ⟨rfl, h.shape.step hs, h.shape'.step hs', harr⟩

theorem Twins.symm {mem mem' : TableMemory} {s s' : TableRun} (h : Twins mem mem' s s') :
    Twins mem' mem s' s :=
  ⟨h.past.symm, h.past ▸ h.shape', h.past ▸ h.shape, fun i => (h.array i).symm⟩

/-- Where the two memories lead a call to different targets, both targets are still empty. -/
theorem Twins.target_fresh {mem mem' : TableMemory} {s s' : TableRun}
    (h : Twins mem mem' s s') {i b : Fin maxPeerBuckets}
    (hne : target mem s.past i ≠ target mem' s.past i) (hb : target mem s.past i = some b) :
    s.table[b].len = 0 := by
  rw [h.shape.len]
  by_cases hf : Foreign mem i
  · exact ((target_foreign hf s.past b).mp hb).2.1
  · rw [target_home hf] at hb hne
    obtain rfl := Option.some.inj hb
    have hf' : Foreign mem' i := by
      by_contra hf'
      exact hne (target_home hf' _).symm
    rw [h.used]
    exact hf'.not_used _

theorem Twins.set_differ {mem mem' : TableMemory} {s s' : TableRun} (h : Twins mem mem' s s')
    (key : CString) (p : Peer)
    (hne : target mem s.past (homeOf key.chars) ≠ target mem' s.past (homeOf key.chars)) :
    Differ tableStep s s' (.set key p) := by
  obtain ⟨t, ht, hg⟩ := setPeer_fresh h.shape key p fun b hb => h.target_fresh hne hb
  obtain ⟨t', ht', hg'⟩ := setPeer_fresh h.shape' key p fun b hb =>
    h.symm.target_fresh (by rw [h.past]; exact hne.symm) (by rw [h.past]; exact hb)
  refine ⟨.stored (grown s.table t), .stored (grown s'.table t'), _, _,
    by rw [tableStep_set, ht, ok_bind], by rw [tableStep_set, ht', ok_bind], ?_⟩
  intro he
  rw [hg, hg'] at he
  apply hne
  apply Option.ext
  intro b
  rw [← Option.toList_eq_singleton_iff, ← Option.toList_eq_singleton_iff,
    TableResult.stored.inj he]

theorem tableStep_get {mem : TableMemory} {past : List (Fin maxPeerBuckets)} {s : TableRun}
    (hs : Shape mem past s.table) (key : CString) :
    tableStep s (.get key) = .ok (.found (if Used mem past (homeOf key.chars) ∨
      Scanned mem (homeOf key.chars) then some s.table[homeOf key.chars].peers else none), s) := by
  rw [tableStep, getPeerBucket_shape hs, ok_bind]
  split_ifs <;> rfl

theorem Twins.peers {mem mem' : TableMemory} {s s' : TableRun} (h : Twins mem mem' s s')
    (i : Fin maxPeerBuckets) : s.table[i].peers = s'.table[i].peers :=
  congrArg GrowArray.live (h.array i)

theorem Twins.get_alike {mem mem' : TableMemory} {s s' : TableRun} (h : Twins mem mem' s s')
    (key : CString) (he : Agrees mem mem' s.past (.get key)) :
    Alike tableStep (Twins mem mem') s s' (.get key) := by
  right
  refine ⟨_, s, s', tableStep_get h.shape key, ?_, h⟩
  have hiff : (Used mem' s.past (homeOf key.chars) ∨ Scanned mem' (homeOf key.chars)) ↔
      (Used mem s.past (homeOf key.chars) ∨ Scanned mem (homeOf key.chars)) := by
    rw [← h.used]
    rcases he with hu | hscan
    · simp [hu]
    · rw [hscan]
  rw [tableStep_get h.shape' key, h.peers]
  simp only [hiff]

theorem Twins.get_differ {mem mem' : TableMemory} {s s' : TableRun} (h : Twins mem mem' s s')
    (key : CString) (hne : ¬ Agrees mem mem' s.past (.get key)) :
    Differ tableStep s s' (.get key) := by
  refine ⟨_, _, s, s', tableStep_get h.shape key, tableStep_get h.shape' key, ?_⟩
  rw [Agrees, not_or] at hne
  obtain ⟨hu, hscan⟩ := hne
  have hu' : ¬ Used mem' s.past (homeOf key.chars) := fun hu' => hu ((h.used _).mpr hu')
  simp only [hu, hu', false_or]
  by_cases hs : Scanned mem (homeOf key.chars) <;>
    by_cases hs' : Scanned mem' (homeOf key.chars) <;> simp [hs, hs'] at hscan ⊢

/-- Two runs of the same calls on different memory show the same exactly when the memories
agree for every call. -/
theorem tableTrace_eq_iff (mem mem' : TableMemory) (ops : List TableOp) :
    tableTrace mem ops = tableTrace mem' ops ↔
      AllSteps (next tableStep) (fun s op _ => Agrees mem mem' s.past op)
        ⟨[], initPeerTable mem⟩ ops := by
  have hinit : Twins mem mem' ⟨[], initPeerTable mem⟩ ⟨[], initPeerTable mem'⟩ :=
    ⟨rfl, shape_init mem, shape_init mem', fun i => by simp [initPeerTable, newPeerArray]⟩
  apply trace_eq_iff _ _ hinit
  · intro s s' op h hq
    cases op with
    | set key p => exact h.set_alike key p ((h.target_eq_iff _).mpr hq)
    | get key => exact h.get_alike key hq
  · intro s s' op h hq
    cases op with
    | set key p => exact h.set_differ key p fun he => hq ((h.target_eq_iff _).mp he)
    | get key => exact h.get_differ key hq

/-- A key with home bucket 1. -/
def key2 : CString := ⟨[50], by decide⟩

/-- One `set_peer` call stores its peer on zeroed memory and drops it where `malloc` returned
blocks that read as active with a key of 100. -/
theorem peer_dropped :
    tableTrace (fun _ => .zeroed) [.set key2 somePeer] ≠
      tableTrace (fun _ => ⟨true, 100⟩) [.set key2 somePeer] := by
  decide

end PeerToPeer
