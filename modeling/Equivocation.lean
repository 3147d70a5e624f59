import Equivocation.Campaign
import Equivocation.Scenario.Forms
import Equivocation.Scenario.Generator
import Equivocation.Proofs.Accounts
import Equivocation.Proofs.Announcements
import Equivocation.Proofs.Attribution
import Equivocation.Proofs.BlockEncoding
import Equivocation.Proofs.Budget
import Equivocation.Proofs.Canonicity
import Equivocation.Proofs.Capacity
import Equivocation.Proofs.Collectors
import Equivocation.Proofs.Conduct
import Equivocation.Proofs.Dispatch
import Equivocation.Proofs.Files
import Equivocation.Proofs.Isolation
import Equivocation.Proofs.Labels
import Equivocation.Proofs.Lineage
import Equivocation.Proofs.Merging
import Equivocation.Proofs.Monotone
import Equivocation.Proofs.Mutation
import Equivocation.Proofs.Pacemaker
import Equivocation.Proofs.Pedigree
import Equivocation.Proofs.Playability
import Equivocation.Proofs.Progress
import Equivocation.Proofs.Provenance
import Equivocation.Proofs.Recency
import Equivocation.Proofs.Rejection
import Equivocation.Proofs.Replay
import Equivocation.Proofs.RoundTrips
import Equivocation.Proofs.Scenarios
import Equivocation.Proofs.Seating
import Equivocation.Proofs.Settling
import Equivocation.Proofs.Substitution
import Equivocation.Proofs.Totals
import Equivocation.Proofs.Transparency
import Equivocation.Proofs.Verdicts
import Equivocation.Proofs.ViewChange
import Equivocation.Proofs.Widths
