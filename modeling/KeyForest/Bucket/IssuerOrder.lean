import KeyForest.Bucket

/-!
# Issuers before the keys they issued

`issuersFirst` orders a list of keys so that a key comes after its issuer if both are in the list.
From each row in turn the chain of issuers is climbed up to a row seen before, and what was climbed
is appended from the top down. A cycle of issuers is cut where the climb meets itself. Of rows with
equal fingerprints the last one is the issuer.
-/
namespace KeyForest.Bucket

/-- The last row with the fingerprint. -/
def lastRowOf? (keys : List Key) (fingerprint : Fingerprint) : Option Nat :=
  (keys.zipIdx.reverse.find? fun entry => entry.1.fingerprint == fingerprint).map (·.2)

/-- The row of the issuer of the key at `row`, if it is in the list. -/
def issuerRow? (keys : List Key) (row : Nat) : Option Nat :=
  (keys[row]?.bind (·.cleanIssuer)).bind (lastRowOf? keys)

/-- Climbs from `next` to issuers for at most `steps` rows; `path` holds the rows climbed so far,
last first. Rows that are `seen` or on the path end the climb. -/
def climb (keys : List Key) (seen : List Nat) : (steps : Nat) → Option Nat → List Nat → List Nat
  | steps + 1, some row, path =>
    if seen.contains row || path.contains row then path
    else climb keys seen steps (issuerRow? keys row) (row :: path)
  | _, _, path => path

/-- The rows in an order with issuers first. -/
def issuerOrder (keys : List Key) : List Nat :=
  (List.range keys.length).foldl
    (fun order start => order ++ climb keys order keys.length (some start) []) []

/-- The keys in an order with issuers first. -/
def issuersFirst (keys : List Key) : List Key := (issuerOrder keys).filterMap (keys[·]?)

end KeyForest.Bucket
