import CfiSlack.Main
import CfiSlack.Proofs.PrunedAncestors
import CfiSlack.Proofs.GraphHistory
import CfiSlack.Proofs.Loosening
import CfiSlack.Proofs.HubRouting
import CfiSlack.Proofs.ShortestDistances
import CfiSlack.Proofs.PolicyOverlays
import CfiSlack.Proofs.PolicyAnswers
import CfiSlack.Proofs.TypedTargets
import CfiSlack.Proofs.AddedEdges
import CfiSlack.Proofs.Complexity
import CfiSlack.Proofs.NodeText
import CfiSlack.Proofs.WrittenFiles
import CfiSlack.Proofs.EdgeFiles
import CfiSlack.Proofs.CountedTargets
import CfiSlack.Proofs.HubMesh
import CfiSlack.Proofs.Subgraphs
import CfiSlack.Proofs.PolicyFailures
import CfiSlack.Proofs.DirectoryFiles
import CfiSlack.Proofs.Generation
import CfiSlack.Proofs.SiteClasses
import CfiSlack.Proofs.StubSignatures
import CfiSlack.Proofs.Listings
import CfiSlack.Proofs.CountHubs
import CfiSlack.Proofs.NumericTargets
import CfiSlack.Proofs.BoundedAvoidance
import CfiSlack.Proofs.TargetCounts
import CfiSlack.Proofs.CallDumps
import CfiSlack.Proofs.FiledRoutes
import CfiSlack.Proofs.RedirectTables
import CfiSlack.Proofs.WideningOrder
import CfiSlack.Proofs.CheckedSites
