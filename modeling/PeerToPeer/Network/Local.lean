import PeerToPeer.Network.Progress

namespace PeerToPeer

open CLib Transition

/-- The ip `"127.0.0.1"`. -/
def localIp : Bytes inetAddrstrlen :=
  (Bytes.zero inetAddrstrlen).write 0 [49, 50, 55, 46, 48, 46, 48, 46, 49]

def localPort (i : Nat) : UInt16 := UInt16.ofNat (3001 + i)

def localEntry {n : Nat} (i : Fin n) : NodeEntry := ⟨Bytes.zero idSize, localIp, localPort i, 0⟩

/-- Networks of two and of three processes have a process 0. -/
instance neZeroTwo : NeZero 2 := ⟨by decide⟩

instance neZeroThree : NeZero 3 := ⟨by decide⟩

theorem three_small : 3 ≤ 1000 := by decide

/-- A network of processes on one host, process `i` at port `3001 + i` with at most two
neighbours. -/
structure LocalNet (n : Nat) where
  small : n ≤ 1000
  links : Fin n → List (Fin n)
  short : ∀ i, (links i).length ≤ initialCap
  others : ∀ i, i ∉ links i
  tables : Fin n → PeerTable
  hashKey : Fin n → Bytes idSize

namespace LocalNet

variable {n : Nat} (c : LocalNet n)

def host (i : Fin n) : Machine where
  node := ⟨localIp, localPort i, c.tables i⟩
  sortedNeighbors := {
    cap := initialCap
    len := (c.links i).length
    block := (c.links i).map localEntry
    len_le := by rw [List.length_map]
    block_le := by rw [List.length_map]; exact c.short i
    cap_pos := initialCap_pos
    cap_bytes := initialCap_nodes }
  wait := true
  sends := []

def net : Net n := ⟨c.host, c.hashKey, []⟩

theorem localIp_terminated : Terminated localIp.mem := by decide

theorem host_live (i : Fin n) : (c.host i).sortedNeighbors.live = (c.links i).map localEntry := by
  have hlen : (c.links i).length = ((c.links i).map localEntry).length := by rw [List.length_map]
  show ((c.links i).map localEntry).take (c.links i).length = _
  rw [hlen, List.take_length]

theorem localPort_inj {i j : Nat} (hi : i < 1000) (hj : j < 1000)
    (h : localPort i = localPort j) : i = j := by
  have hn := congrArg UInt16.toNat h
  rw [localPort, localPort, UInt16.toNat_ofNat', UInt16.toNat_ofNat'] at hn
  omega

theorem addr_inj {i j : Fin n} (h : c.net.addr i = c.net.addr j) : i = j := by
  have hs := c.small
  have hport : localPort i = localPort j := congrArg Prod.snd h
  exact Fin.ext (localPort_inj (by omega) (by omega) hport)

theorem entry_addr (i : Fin n) : (localEntry i).addr = c.net.addr i := rfl

/-- The next hop is the first link that is not the caller. -/
theorem host_nextHop (i caller : Fin n) :
    nextHop (c.host i).sortedNeighbors.live (c.net.addr caller) =
      ((c.links i).find? fun j => j ≠ caller).map localEntry := by
  have hiff (j : Fin n) : (localEntry j).addr ≠ c.net.addr caller ↔ j ≠ caller := by
    rw [c.entry_addr]
    exact not_congr ⟨c.addr_inj, fun h => h ▸ rfl⟩
  rw [host_live, nextHop, List.find?_map]
  congr 2
  funext j
  exact decide_eq_decide.mpr (hiff j)

theorem sound (htab : ∀ i, TableInv (c.tables i))
    (hstr : ∀ i, ∀ b : Fin maxPeerBuckets, ∀ p ∈ (c.tables i)[b].peers, Terminated p.ip.mem)
    (hkey : ∀ i, Terminated (c.hashKey i).mem) : c.net.Sound := by
  refine ⟨fun i => ⟨localIp_terminated, ?_, hstr i⟩, hkey, htab, ?_,
    fun i j => c.addr_inj⟩
  · intro e he
    rw [show (c.net.hosts i).sortedNeighbors.live = _ from c.host_live i] at he
    obtain ⟨j, -, rfl⟩ := List.mem_map.mp he
    exact localIp_terminated
  · intro i e he
    rw [show (c.net.hosts i).sortedNeighbors.live = _ from c.host_live i] at he
    obtain ⟨j, hj, rfl⟩ := List.mem_map.mp he
    exact ⟨j, fun hji => c.others i (hji ▸ hj), c.entry_addr j⟩

end LocalNet

/-- A table that nothing was put into. -/
def emptyTable : PeerTable := initPeerTable fun _ => .zeroed

theorem emptyTable_strings (b : Fin maxPeerBuckets) :
    ∀ p ∈ emptyTable[b].peers, Terminated p.ip.mem := by
  intro p hp
  have hnil : emptyTable[b].peers = [] := initPeerTable_peers _ b
  rw [hnil] at hp
  simp at hp

end PeerToPeer
