import RaftProofs.ReadOnly
import RaftProofs.Registry
import RaftProofs.Run
import RaftProofs.Abstract
import RaftProofs.History
import RaftProofs.Acks
import RaftProofs.Order
import RaftProofs.Datadriven
import RaftProofs.DatadrivenDriver
import RaftProofs.Errors
import RaftProofs.Network
import RaftProofs.Delivery
import RaftProofs.Cluster
import RaftProofs.Gate
