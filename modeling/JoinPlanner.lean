import JoinPlanner.Proofs.Candidate.Delivered
import JoinPlanner.Proofs.Candidate.Meaning
import JoinPlanner.Proofs.Cost.Annotated
import JoinPlanner.Proofs.Cost.History
import JoinPlanner.Proofs.Cost.Pruning
import JoinPlanner.Proofs.Cost.Relation
import JoinPlanner.Proofs.Expr.Classes
import JoinPlanner.Proofs.Expr.OneClass
import JoinPlanner.Proofs.Graph.Positions
import JoinPlanner.Proofs.Predicate.Advertised
import JoinPlanner.Proofs.Predicate.Grouping
import JoinPlanner.Proofs.Predicate.Hoisting
import JoinPlanner.Proofs.Predicate.Probing
import JoinPlanner.Proofs.Search.Cheapest
import JoinPlanner.Proofs.Search.Refinement
import JoinPlanner.Proofs.Statistics.FactIdentity
import JoinPlanner.Proofs.Statistics.WorstCase
import JoinPlanner.Proofs.Value.Exact
import JoinPlanner.Proofs.Wire.Accepted
import JoinPlanner.Proofs.Wire.Replanned
import JoinPlanner.Service
