import IntegerPrograms.Main
import IntegerPrograms.Proofs.Exact
import IntegerPrograms.Proofs.Tableau.Solutions
import IntegerPrograms.Proofs.Tableau.Basis
import IntegerPrograms.Proofs.Simplex.Optimality
import IntegerPrograms.Proofs.Cut.Gomory
import IntegerPrograms.Proofs.Search.Branching
import IntegerPrograms.Proofs.Search.Rounds
import IntegerPrograms.Proofs.Search.Nodes
import IntegerPrograms.Proofs.Search.Agreement
import IntegerPrograms.Proofs.Search.Integrality
import IntegerPrograms.Proofs.Search.DepthFirst
import IntegerPrograms.Proofs.Search.Records
import IntegerPrograms.Proofs.Search.Storage
import IntegerPrograms.Proofs.Search.Splitting
import IntegerPrograms.Proofs.Simplex.Certificates
import IntegerPrograms.Proofs.Simplex.Cycling
import IntegerPrograms.Proofs.Search.Unbounded
import IntegerPrograms.Proofs.Finite
import IntegerPrograms.Proofs.Search.WellFormed
import IntegerPrograms.Proofs.Search.NodeLimit
import IntegerPrograms.Proofs.Search.Accounts
import IntegerPrograms.Proofs.Comparison
import IntegerPrograms.Proofs.Search.Incumbents
import IntegerPrograms.Proofs.Search.CutTrace
import IntegerPrograms.Proofs.Search.Descent
import IntegerPrograms.Proofs.Search.Promises
import IntegerPrograms.Proofs.Search.Boundedness
import IntegerPrograms.Proofs.Search.CutSources
import IntegerPrograms.Proofs.Cut.Separation
import IntegerPrograms.Proofs.Simplex.Progress
import IntegerPrograms.Proofs.Simplex.Answers
import IntegerPrograms.Proofs.Sense
import IntegerPrograms.Proofs.Feasibility
import IntegerPrograms.Proofs.Integers
import IntegerPrograms.Proofs.Sums
import IntegerPrograms.Proofs.Search.Selection
