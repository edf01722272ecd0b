import FinPal.Misc.DecayingSample
import FinPal.Misc.RangeSet
import FinPal.Misc.Varint
import FinPal.Protocol.Tokens
import FinPal.Verify.AmendmentActivation
import FinPal.Verify.AssetEnumeration
import FinPal.Verify.Avalanche
import FinPal.Verify.Chaining
import FinPal.Verify.Conservation
import FinPal.Verify.CreditPaths
import FinPal.Verify.DirectoryEmptiness
import FinPal.Verify.FeePool
import FinPal.Verify.FlowSandbox
import FinPal.Verify.HeaderRoundTrip
import FinPal.Verify.IssueTotal
import FinPal.Verify.ItemsAfter
import FinPal.Verify.LoadFees
import FinPal.Verify.ManifestCoherence
import FinPal.Verify.MultiSign
import FinPal.Verify.NodeDecoding
import FinPal.Verify.PeerLimits
import FinPal.Verify.QuorumIntersection
import FinPal.Verify.SandboxMerge
import FinPal.Verify.SkipListLookup
import FinPal.Verify.SlesRange
import FinPal.Verify.SnapshotIsolation
import FinPal.Verify.StrandConnected
import FinPal.Verify.TokenMemos
import FinPal.Verify.TxQAccept
import FinPal.Verify.TxQClearing
import FinPal.Verify.TxQSequences
