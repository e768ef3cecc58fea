import KeyForest.Forest.Basic

/-!
# Checking a forest

`firstDefect` looks for a violation of the structure of a forest and answers the first one.
-/
namespace KeyForest.Forest

inductive Defect where
  | storedUnsorted
  | topLevelUnsorted
  | unlisted (fingerprint : Fingerprint)
  | placedCount (stored placed : Nat)
  | misplacedTop (fingerprint : Fingerprint)
  | emptyBucket (parent : Fingerprint)
  | absentParent (parent : Fingerprint)
  | childrenUnsorted (parent : Fingerprint)
  | misplacedChild (child parent : Fingerprint)
  | listedCount (stored listed : Nat)
  | awaitedPresent (issuer : Fingerprint)
  | orphanNotTop (fingerprint : Fingerprint)
  | onCycle (fingerprint : Fingerprint)
deriving DecidableEq

def Defect.message : Defect → String
  | storedUnsorted => "flat index is not sorted and unique"
  | topLevelUnsorted => "top level is not sorted and unique"
  | unlisted fingerprint => s!"{fingerprint.text} was unlisted and never listed again"
  | placedCount stored placed => s!"{stored} keys stored but {placed} placed"
  | misplacedTop fingerprint => s!"{fingerprint.text} is top level but not placed there"
  | emptyBucket parent => s!"empty child bucket for {parent.text}"
  | absentParent parent => s!"child bucket for absent parent {parent.text}"
  | childrenUnsorted parent => s!"children of {parent.text} are not sorted and unique"
  | misplacedChild child parent =>
    s!"{child.text} is listed under {parent.text} but placed elsewhere"
  | listedCount stored listed => s!"{stored} keys stored but {listed} listed"
  | awaitedPresent issuer => s!"orphans still waiting for present issuer {issuer.text}"
  | orphanNotTop fingerprint => s!"orphan {fingerprint.text} is not top level"
  | onCycle fingerprint => s!"{fingerprint.text} is part of a cycle"

/-- Whether the placements say that the key is listed under `parent`. -/
def isPlacedUnder (forest : Forest) (parent : Option Fingerprint) (fingerprint : Fingerprint) :
    Bool :=
  (forest.parents.get? fingerprint).any (sameParent parent)

/-- Whether the way up from the key leads to more than `steps` parents. -/
def climbsBeyond (forest : Forest) : (steps : Nat) → Fingerprint → Bool
  | steps, fingerprint =>
    match (forest.parents.get? fingerprint).join with
    | none => false
    | some parent =>
      match steps with
      | 0 => true
      | steps + 1 => climbsBeyond forest steps parent

/-- What is wrong with the keys listed under one parent. -/
def bucketDefect (forest : Forest) (parent : Fingerprint) (keys : Bucket) : Option Defect :=
  if keys.isEmpty then some (.emptyBucket parent)
  else if !forest.stored.has parent then some (.absentParent parent)
  else if !keys.isSorted then some (.childrenUnsorted parent)
  else (keys.find? fun key => !forest.isPlacedUnder (some parent) key.fingerprint).map
    fun key => .misplacedChild key.fingerprint parent

/-- What is wrong with the keys waiting for one issuer. -/
def waitingDefect (forest : Forest) (issuer : Fingerprint) (keys : Bucket) : Option Defect :=
  if forest.stored.has issuer then some (.awaitedPresent issuer)
  else (keys.find? fun key => !forest.isPlacedUnder none key.fingerprint).map
    fun key => .orphanNotTop key.fingerprint

/-- The number of rows at the top level and under all parents. -/
def listedCount (forest : Forest) : Nat :=
  forest.topLevel.length + Table.total forest.children

/-- The first violation of the structure of a forest. -/
def firstDefect (forest : Forest) : Option Defect :=
  (if forest.stored.isSorted then none else some .storedUnsorted) <|>
  (if forest.topLevel.isSorted then none else some .topLevelUnsorted) <|>
  (forest.inTransit.head?.map fun entry => .unlisted entry.1) <|>
  (if forest.parents.length = forest.stored.length then none
    else some (.placedCount forest.stored.length forest.parents.length)) <|>
  ((forest.topLevel.find? fun key => !forest.isPlacedUnder none key.fingerprint).map
    fun key => .misplacedTop key.fingerprint) <|>
  (forest.children.findSome? fun entry => forest.bucketDefect entry.1 entry.2) <|>
  (if forest.listedCount = forest.stored.length then none
    else some (.listedCount forest.stored.length forest.listedCount)) <|>
  (forest.waiting.findSome? fun entry => forest.waitingDefect entry.1 entry.2) <|>
  ((forest.parents.find? fun entry => forest.climbsBeyond forest.stored.length entry.1).map
    fun entry => .onCycle entry.1)

end KeyForest.Forest
