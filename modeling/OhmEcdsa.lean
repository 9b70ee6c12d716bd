import OhmEcdsa.Core.Bounds
import OhmEcdsa.Core.DkgFaults
import OhmEcdsa.Core.Preimage
import OhmEcdsa.Core.PresignRobust
import OhmEcdsa.Core.Refresh
import OhmEcdsa.Core.Restarts
import OhmEcdsa.Core.Sharing
import OhmEcdsa.Core.SignKi
import OhmEcdsa.Core.Store
import OhmEcdsa.Core.TripleRobust
import OhmEcdsa.DemoEvm.JsonRfc
import OhmEcdsa.DemoEvm.Tx
import OhmEcdsa.Store.Evidence
import OhmEcdsa.Node.PoolIds
import OhmEcdsa.Node.Admission
import OhmEcdsa.Node.Audit
import OhmEcdsa.Node.Framing
import OhmEcdsa.Node.FrameBound
import OhmEcdsa.Node.Keygen
import OhmEcdsa.Node.Restart
import OhmEcdsa.Node.Resync
import OhmEcdsa.Node.Rushing
import OhmEcdsa.Node.Sign
import OhmEcdsa.Node.Setup
import OhmEcdsa.Node.SignAudit
import OhmEcdsa.Node.SignedDkg
import OhmEcdsa.Node.Slots
import OhmEcdsa.Node.VssRun
import OhmEcdsa.Node.PresignSound
