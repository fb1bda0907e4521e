import PeerToPeer.Rpc.Receive
import PeerToPeer.Rpc.RoundTrip
import PeerToPeer.Transition.Run
import PeerToPeer.Nodes.AnswerSize
import PeerToPeer.Network.Initiator
import PeerToPeer.Network.Hash
import PeerToPeer.Network.Discovery
import PeerToPeer.Network.Loops
import PeerToPeer.Client.Joining
import PeerToPeer.Peers.Isolation
import PeerToPeer.Peers.Uninitialised
import PeerToPeer.Rpc.Datagram
import PeerToPeer.Client.Receiver
import PeerToPeer.Client.Walks
import PeerToPeer.Nodes.PeerList
import PeerToPeer.Nodes.Propagation
import PeerToPeer.Nodes.Bootstrap
import PeerToPeer.Nodes.Distance
import PeerToPeer.Nodes.Resorting
import PeerToPeer.Nodes.Metric
import PeerToPeer.Nodes.Closest
import PeerToPeer.Peers.Lookup
import PeerToPeer.Peers.Probing
import PeerToPeer.Rpc.Rejecting
import PeerToPeer.Nodes.KeyField
import PeerToPeer.Nodes.Stacks
import PeerToPeer.Nodes.LiveReads
import PeerToPeer.Descriptor.Failing
import PeerToPeer.Network.Refines
import PeerToPeer.Network.Survival
import PeerToPeer.Network.Traffic
import PeerToPeer.Parsing.Document
import PeerToPeer.Parsing.Integers
import PeerToPeer.Parsing.Accepted
import PeerToPeer.Client.Main
import PeerToPeer.Client.Contacts
import PeerToPeer.Client.Ending
import PeerToPeer.Network.Ledger
import PeerToPeer.Network.Round
