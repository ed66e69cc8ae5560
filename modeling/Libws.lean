import Libws.Session.Calls
import Libws.Session.Closing
import Libws.Session.LifecycleSpec
import Libws.Session.Draining
import Libws.Session.BufferLayout
import Libws.Session.Refinement
import Libws.Session.Delivery
import Libws.Session.Receiving
import Libws.Session.Checked
import Libws.Session.Inbound
import Libws.Session.Outbound
import Libws.Session.Boundary
import Libws.Session.Width
import Libws.Io.Upgrade
import Libws.Io.Isolation
import Libws.Io.Drain
import Libws.Io.Output
import Libws.Crypto.Digest
import Libws.Crypto.Base64Codec
import Libws.Session.StreamRefinement
import Libws.Session.Oversize
import Libws.Session.Fragments
import Libws.Session.Duplex
import Libws.Framing.WsProto
import Libws.Io.EndToEnd
import Libws.Trace.Woven
import Libws.Io.Startup
import Libws.Io.Safety
