import BtcAnchoring.Btc
import BtcAnchoring.Exonum
import BtcAnchoring.Config
import BtcAnchoring.Quorum
import BtcAnchoring.Service
import BtcAnchoring.Lifecycle
import BtcAnchoring.HostChain
import BtcAnchoring.Proto.Wire
import BtcAnchoring.Proto.BinaryMap
