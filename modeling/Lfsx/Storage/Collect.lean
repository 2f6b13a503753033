import Mathlib.Data.Finset.Insert
import Lfsx.Storage.S3

/-!
# Collection

A sweep drops the markers of a repository that are neither retained nor young, and
frees the content no other repository claims.  Whether another one does is answered
by the claim index, one listing for each object (`sweepIndexed`), or, in a bucket
the index does not cover yet, by a listing of the whole bucket, which also builds
the index (`sweepWholeBucket`).

For each object both go through `dropMarker`, which deletes the marker, the
reference and the size in that order, and both ask the index again before they
delete the content (`claimedSince`).

`Survey` sorts the keys of a listing by what they are.
-/

namespace Lfsx.Storage

open Request Keyspace

structure SweepReport where
  swept : Nat
  bytes : Nat
  withinGrace : Nat
  incomplete : Bool
  dryRun : Bool
deriving DecidableEq

/-! ## Surveys -/

structure Survey where
  markers : List Text
  sized : AList fun _ : Oid => Text
  mine : List (Entry × Oid)
  claimedElsewhere : Finset Oid
  contentSizes : AList fun _ : Text => Nat

namespace Survey

def empty : Survey :=
  { markers := [], sized := ∅, mine := [], claimedElsewhere := ∅, contentSizes := ∅ }

def notMarkers : List Text :=
  [".incoming/".toList, ".locks/".toList, ".refs/".toList, ".probe/".toList]

def file (survey : Survey) (entry : Entry) (ours : Text) : Survey :=
  if ".content/".toList.isPrefixOf entry.key then
    { survey with
      contentSizes :=
        survey.contentSizes.insert (Path.last (entry.key.drop ".content/".length)) entry.size }
  else if notMarkers.any fun start => start.isPrefixOf entry.key then survey
  else if Sizes.isOne entry.key then
    if ours.isPrefixOf entry.key then
      match Sizes.read entry.key with
      | some (oid, _) => { survey with sized := survey.sized.insert oid entry.key }
      | none => survey
    else survey
  else
    match markerOid entry.key with
    | none => survey
    | some oid =>
        if ours.isPrefixOf entry.key then
          { survey with
            markers := survey.markers ++ [entry.key], mine := survey.mine ++ [(entry, oid)] }
        else
          { survey with
            markers := survey.markers ++ [entry.key]
            claimedElsewhere := insert oid survey.claimedElsewhere }

/-- `Survey::of`. -/
def of (entries : List Entry) (ours : Text) : Survey :=
  entries.foldl (fun survey entry => survey.file entry ours) empty

end Survey

namespace S3Store

/-! ## What a sweep may drop -/

/-- The markers a sweep may drop, and the report with them counted. -/
def droppable (retained : Finset Oid) (grace : Nat) :
    List (Entry × Oid) → SweepReport → Op (List (Entry × Oid) × SweepReport)
  | [], report => pure ([], report)
  | (entry, oid) :: rest, report =>
      if oid ∈ retained then droppable retained grace rest report
      else do
        let age ← entry.age
        if tooYoung age grace then
          droppable retained grace rest { report with withinGrace := report.withinGrace + 1 }
        else do
          let dropped ← droppable retained grace rest { report with swept := report.swept + 1 }
          pure ((entry, oid) :: dropped.1, dropped.2)

variable (keys : Keyspace)

/-! ## One object -/

/-- `if let Some(key) = sized.get(oid)`, and a failure is only logged. -/
def dropSize (sized : AList fun _ : Oid => Text) (oid : Oid) : Op Unit :=
  match sized.lookup oid with
  | none => pure ()
  | some key => do
      let _ ← (keys.delete key).attempt
      pure ()

def dropMarker (ns : Namespace) (oid : Oid) (marker : Text)
    (sized : AList fun _ : Oid => Text) : Op Unit := do
  let _ ← keys.delete marker
  let _ ← (keys.delete (Refs.key ns oid)).attempt
  dropSize keys sized oid

def claimedSince (ns : Namespace) (oid : Oid) : Op Bool := Refs.claimedByAnother keys ns oid

/-- The bytes a delete of the content freed, if `size` is what it weighs. -/
def freeContent (oid : Oid) (size : Nat) : Op Nat := do
  if ← keys.delete (contentKey oid) then pure size else pure 0

/-- The loop of a sweep: what it does with each marker it may drop, and the report
with the bytes that freed. -/
def sweepEach (one : Entry → Oid → Op Nat) : List (Entry × Oid) → SweepReport → Op SweepReport
  | [], report => pure report
  | (entry, oid) :: rest, report => do
      let freed ← one entry oid
      sweepEach one rest { report with bytes := report.bytes + freed }

/-! ## By the index -/

/-- What is left to do once the marker of an object is gone. -/
def freeIndexed (ns : Namespace) (oid : Oid) (frees : Bool) : Op Nat :=
  if frees then do
    if ← claimedSince keys ns oid then pure 0
    else do
      let size ← sizeOrZero oid
      freeContent keys oid size
  else pure 0

/-- The body of the loop of `sweep_indexed`. -/
def sweepOne (ns : Namespace) (sized : AList fun _ : Oid => Text) (dryRun : Bool) (entry : Entry)
    (oid : Oid) : Op Nat := do
  let claimed ← Refs.claimedByAnother keys ns oid
  if dryRun then
    if !claimed then sizeOrZero oid else pure 0
  else do
    dropMarker keys ns oid entry.key sized
    freeIndexed keys ns oid (!claimed)

def sweepIndexed (ns : Namespace) (retained : Finset Oid) (grace : Nat) (dryRun : Bool) :
    Op SweepReport := do
  let listing ← keys.listing (ownPrefix ns)
  let survey := Survey.of listing.entries (ownPrefix ns)
  let dropped ← droppable retained grace survey.mine
    { swept := 0, bytes := 0, withinGrace := 0, incomplete := !listing.complete, dryRun }
  sweepEach (sweepOne keys ns survey.sized dryRun) dropped.1 dropped.2

/-! ## By the whole bucket -/

/-- What is left to do once the marker of an object is gone. -/
def freeListed (ns : Namespace) (oid : Oid) (frees : Bool) (size : Nat) : Op Nat :=
  if frees then do
    if ← claimedSince keys ns oid then pure 0 else freeContent keys oid size
  else pure 0

/-- The body of the loop of `sweep_whole_bucket`. -/
def sweepOneListed (ns : Namespace) (survey : Survey) (complete dryRun : Bool) (entry : Entry)
    (oid : Oid) : Op Nat :=
  let frees := complete && decide (oid ∉ survey.claimedElsewhere)
  let size := (survey.contentSizes.lookup oid.text).getD 0
  if dryRun then pure (if frees then size else 0)
  else do
    dropMarker keys ns oid entry.key survey.sized
    freeListed keys ns oid frees size

/-- A real sweep that listed everything builds the index; a failure is only logged. -/
def buildIndex (markers : List Text) (complete dryRun : Bool) : Op Unit :=
  if !dryRun && complete then do
    let _ ← (Refs.backfill markers).attempt
    pure ()
  else pure ()

def sweepWholeBucket (ns : Namespace) (retained : Finset Oid) (grace : Nat) (dryRun : Bool) :
    Op SweepReport := do
  let listing ← keys.listing []
  let survey := Survey.of listing.entries (ownPrefix ns)
  buildIndex survey.markers listing.complete dryRun
  let dropped ← droppable retained grace survey.mine
    { swept := 0, bytes := 0, withinGrace := 0, incomplete := !listing.complete, dryRun }
  sweepEach (sweepOneListed keys ns survey listing.complete dryRun) dropped.1 dropped.2

def sweep (ns : Namespace) (retained : Finset Oid) (grace : Nat) (dryRun : Bool) :
    Op SweepReport := do
  if ← Refs.ready then sweepIndexed keys ns retained grace dryRun
  else sweepWholeBucket keys ns retained grace dryRun

end S3Store

/-! ## Calls -/

/-- What the server does with the objects of a bucket. -/
inductive Call where
  | store (ns : Namespace) (oid : Oid) (staged : Bytes)
  | adopt (ns : Namespace) (oid : Oid) (size : Nat)
  | sweep (ns : Namespace) (retained : Finset Oid) (grace : Nat) (dryRun : Bool)
  | usageOf (ns : Namespace)
  | reclaimIncoming (olderThan : Nat)

def Call.run (keys : Keyspace) : Call → Op Unit
  | .store ns oid staged => S3Store.store ns oid staged
  | .adopt ns oid size => S3Store.adopt keys ns oid size
  | .sweep ns retained grace dryRun => do
      let _ ← S3Store.sweep keys ns retained grace dryRun
      pure ()
  | .usageOf ns => do
      let _ ← S3Store.usageOf keys ns
      pure ()
  | .reclaimIncoming olderThan => do
      let _ ← S3Store.reclaimIncoming keys olderThan
      pure ()

end Lfsx.Storage
