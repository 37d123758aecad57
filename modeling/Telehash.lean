import Telehash.Kademlia.Distance
import Telehash.Kademlia.Table
import Telehash.Kademlia.Invariant
import Telehash.Kademlia.Promotion
import Telehash.Kademlia.Tags
import Telehash.Kademlia.FindKey
import Telehash.Kademlia.Lookup
import Telehash.Kademlia.Membership
import Telehash.Packet.Header
import Telehash.Packet.Codec
import Telehash.Packet.RoundTrip
import Telehash.Channel.Controller
import Telehash.Channel.Demux
import Telehash.Channel.Routing
import Telehash.Channel.Link
import Telehash.Channel.Ending
import Telehash.Json.Utf8
import Telehash.Json.Scanner
import Telehash.Json.Strings
import Telehash.Json.Numbers
import Telehash.Json.Containers
import Telehash.Json.Values
import Telehash.Json.Compact
import Telehash.Json.Frame
import Telehash.Der.Integer
import Telehash.Der.Header
import Telehash.Der.RsaKey
import Telehash.Crypto.Ctr
import Telehash.Crypto.Sha256
import Telehash.Channel.Shutdown
