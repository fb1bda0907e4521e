import PeerToPeer.Nodes.Runs
import Mathlib.Logic.Function.Basic

namespace PeerToPeer

open CLib Transition

/-- One search: who called `get_peers` first, and for which hash. -/
structure Search (n : Nat) where
  initiator : Fin n
  hash : Bytes idSize

/-- A datagram under way. No handler sees `search`; it records the chain of calls that the
datagram belongs to. -/
structure Packet (n : Nat) where
  dest : Origin
  msg : RpcMsg
  search : Search n

/-- `n` processes, each with the hash of the file it serves, and the datagrams between them. -/
structure Net (n : Nat) where
  hosts : Fin n → Machine
  hashKey : Fin n → Bytes idSize
  flight : List (Packet n)

inductive NetEvent (n : Nat) where
  | search (i : Fin n) (hash : Bytes idSize) (os : Os)
  | timeout (i : Fin n) (os : Os)
  | join (i : Fin n) (dest : Origin) (os : Os)
  | deliver (k : Nat) (j : Fin n) (dup : Bool) (os : Os)
  | lose (k : Nat)

/-- All that the event can make a process send is `JOIN` calls. -/
def NetEvent.Joins {n : Nat} : NetEvent n → Prop
  | timeout _ _ => True
  | join _ _ _ => True
  | _ => False

/-- The datagrams that the socket took. -/
def sentPackets {n : Nat} (search : Search n) (out : List Send) : List (Packet n) :=
  (out.filter fun x => x.sent).map fun x => ⟨x.dest, x.msg, search⟩

namespace Net

variable {n : Nat}

def addr (s : Net n) (i : Fin n) : Addr := (s.hosts i).node.addr

/-- The number of peers process `i` holds for `hash`. -/
def held (s : Net n) (i : Fin n) (hash : Bytes idSize) : Nat := homeLen (s.hosts i).table hash

/-- Process `i` has become `m`, and what it sent meanwhile joins the datagrams in `rest`. -/
def moved (s : Net n) (i : Fin n) (m : Machine) (search : Search n) (rest : List (Packet n)) :
    Net n where
  hosts := Function.update s.hosts i m
  hashKey := s.hashKey
  flight := rest ++ sentPackets search (m.sends.drop (s.hosts i).sends.length)

/-- One event; `none` when it cannot happen or a process does not survive it. -/
def step (s : Net n) : NetEvent n → Option (Net n)
  | .search i hash os =>
      let self := (s.hosts i).node.origin
      (getPeers os hash self self (s.hosts i)).toOption.map fun r =>
        s.moved i r.2 ⟨i, hash⟩ s.flight
  | .timeout i os =>
      (joinPeers os (s.hashKey i) (s.hosts i)).toOption.bind fun r =>
        -- a process that has nobody to join exits
        if r.1 = 0 then some (s.moved i r.2 ⟨i, s.hashKey i⟩ s.flight) else none
  | .join i dest os =>
      (callRpc os .join [] dest (s.hosts i).node.origin (s.hosts i)).toOption.map fun r =>
        s.moved i r.2 ⟨i, s.hashKey i⟩ s.flight
  | .deliver k j dup os =>
      s.flight[k]?.bind fun p =>
        if p.dest.addr = s.addr j then
          (recvRpc os (s.hashKey j) p.msg (s.hosts j)).toOption.map fun r =>
            s.moved j r.2 p.search (if dup then s.flight else s.flight.eraseIdx k)
        else none
  | .lose k => if k < s.flight.length then some { s with flight := s.flight.eraseIdx k } else none

theorem step_search {s s' : Net n} {i : Fin n} {hash : Bytes idSize} {os : Os} :
    s.step (.search i hash os) = some s' ↔
      ∃ r m, getPeers os hash (s.hosts i).node.origin (s.hosts i).node.origin (s.hosts i) =
        .ok (r, m) ∧ s.moved i m ⟨i, hash⟩ s.flight = s' := by
  simp only [step, Option.map_eq_some_iff, toOption_eq_some, Prod.exists]

theorem step_timeout {s s' : Net n} {i : Fin n} {os : Os} :
    s.step (.timeout i os) = some s' ↔
      ∃ m, joinPeers os (s.hashKey i) (s.hosts i) = .ok (0, m) ∧
        s.moved i m ⟨i, s.hashKey i⟩ s.flight = s' := by
  simp only [step, Option.bind_eq_some_iff, Option.ite_none_right_eq_some, toOption_eq_some,
    Prod.exists, Option.some.injEq]
  constructor
  · rintro ⟨r, m, hm, rfl, rfl⟩
    exact ⟨m, hm, rfl⟩
  · rintro ⟨m, hm, rfl⟩
    exact ⟨0, m, hm, rfl, rfl⟩

theorem step_join {s s' : Net n} {i : Fin n} {dest : Origin} {os : Os} :
    s.step (.join i dest os) = some s' ↔
      ∃ r m, callRpc os .join [] dest (s.hosts i).node.origin (s.hosts i) = .ok (r, m) ∧
        s.moved i m ⟨i, s.hashKey i⟩ s.flight = s' := by
  simp only [step, Option.map_eq_some_iff, toOption_eq_some, Prod.exists]

theorem step_deliver {s s' : Net n} {k : Nat} {j : Fin n} {dup : Bool} {os : Os} :
    s.step (.deliver k j dup os) = some s' ↔
      ∃ p, s.flight[k]? = some p ∧ p.dest.addr = s.addr j ∧
        ∃ r m, recvRpc os (s.hashKey j) p.msg (s.hosts j) = .ok (r, m) ∧
          s.moved j m p.search (if dup then s.flight else s.flight.eraseIdx k) = s' := by
  simp only [step, Option.bind_eq_some_iff, Option.ite_none_right_eq_some,
    Option.map_eq_some_iff, toOption_eq_some, Prod.exists]

theorem step_lose {s s' : Net n} {k : Nat} :
    s.step (.lose k) = some s' ↔
      k < s.flight.length ∧ { s with flight := s.flight.eraseIdx k } = s' := by
  simp only [step, Option.ite_none_right_eq_some, Option.some.injEq]

section Moved

variable (s : Net n) (i : Fin n) (m : Machine) (search : Search n) (rest : List (Packet n))

@[simp] theorem moved_host : (s.moved i m search rest).hosts i = m := by
  simp [moved]

theorem moved_host_ne {j : Fin n} (h : j ≠ i) :
    (s.moved i m search rest).hosts j = s.hosts j := by
  simp [moved, h]

/-- What a process keeps when it moves, the whole network keeps. -/
theorem moved_same {α : Type} (f : Machine → α) (hf : f m = f (s.hosts i)) (j : Fin n) :
    f ((s.moved i m search rest).hosts j) = f (s.hosts j) := by
  by_cases hj : j = i
  · subst hj
    rw [moved_host, hf]
  · rw [moved_host_ne _ _ _ _ _ hj]

theorem moved_flight {out : List Send} (h : m.sends = (s.hosts i).sends ++ out) :
    (s.moved i m search rest).flight = rest ++ sentPackets search out := by
  rw [moved, h, List.drop_left]

end Moved

theorem flight_head {s : Net n} {p : Packet n} (h : s.flight = [p]) :
    s.flight[0]? = some p := by
  rw [h]
  rfl

theorem mem_sentPackets {search : Search n} {out : List Send} {p : Packet n}
    (h : p ∈ sentPackets search out) :
    p.search = search ∧ ∃ x ∈ out, x.dest = p.dest ∧ x.msg = p.msg := by
  simp only [sentPackets, List.mem_map, List.mem_filter] at h
  obtain ⟨x, ⟨hx, -⟩, rfl⟩ := h
  exact ⟨rfl, x, hx, rfl, rfl⟩

end Net

end PeerToPeer
