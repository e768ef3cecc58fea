import KeyForest.Consistency
import KeyForest.Forest.Defect
import KeyForest.Json.Printer
import KeyForest.Main
import KeyForest.Proofs.Identity
import KeyForest.Proofs.Table
import KeyForest.Proofs.Batch
import KeyForest.Proofs.Ascent
import KeyForest.Proofs.Forest.Walks
import KeyForest.Proofs.Forest.Arranged
import KeyForest.Proofs.Consistency
import KeyForest.Proofs.Contents
import KeyForest.Proofs.FlatList
import KeyForest.Proofs.Forest.Canonical
import KeyForest.Proofs.Forest.Cycles
import KeyForest.Proofs.Forest.Structure
import KeyForest.Proofs.Observers
import KeyForest.Proofs.Agreement
import KeyForest.Proofs.Forest.Membership
import KeyForest.Proofs.Replay
import KeyForest.Proofs.Forest.Repeat
import KeyForest.Proofs.Forest.Cuts
import KeyForest.Proofs.Forest.Leaves
import KeyForest.Proofs.Forest.Touched
import KeyForest.Proofs.Ranking
import KeyForest.Proofs.Projection
import KeyForest.Proofs.LetterCase
import KeyForest.Proofs.Key.Encoding
import KeyForest.Proofs.Answers
import KeyForest.Proofs.IssuerOrder
import KeyForest.Proofs.Searching
import KeyForest.Proofs.FilterGroup
import KeyForest.Proofs.Preparation
import KeyForest.Proofs.Appearance
import KeyForest.Proofs.Classification
import KeyForest.Proofs.Settings
import KeyForest.Proofs.Comparison
import KeyForest.Proofs.FiniteMap
import KeyForest.Proofs.Selection
import KeyForest.Proofs.Forest.Traversals
import KeyForest.Proofs.Forest.Moments
