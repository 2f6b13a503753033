import Lfsx.Storage.Collect
import Lfsx.Storage.Local

/-!
# Maintenance of a volume

`sweep`, `dedupe` and `compress` walk what a repository holds (`objectsOf`) and visit one
object after the other.  A sweep drops the objects nobody retains, and their content with
the last name.  Dedupe gives the content its name under `.content`, or replaces the file of
a repository by a link to it.  Compress rewrites a file that is not a container yet, and
puts the container in its place.
-/

namespace Lfsx.Storage

open Request Files

namespace LocalStore

/-! ## Walking -/

structure Found where
  path : LocalPath
  oid : Oid

/-- What a repository holds, and whether that is everything. -/
structure Walk where
  objects : List Found
  complete : Bool

/-- A path whose last name is an object id. -/
def parsed (path : LocalPath) : Option Found :=
  match path.getLast? with
  | none => none
  | some name =>
      match Oid.parse name with
      | .ok oid => some ⟨path, oid⟩
      | .error _ => none

/-- What is in a directory, unless it cannot be read, and whether nothing is missing. -/
def entries (dir : LocalPath) : Op (Option (List LocalPath) × Bool) := do
  match ← (readDir dir).caught with
  | .ok (found, ended) => return (some found, ended)
  | .error _ => return (none, false)

def objectsIn : List LocalPath → Walk → Op Walk
  | [], walk => return walk
  | fanout :: rest, walk => do
      let listed ← entries fanout
      objectsIn rest
        { objects := walk.objects ++ (listed.1.getD []).filterMap parsed
          complete := walk.complete && listed.2 }

def fanoutsIn : List LocalPath → Walk → Op Walk
  | [], walk => return walk
  | first :: rest, walk => do
      let listed ← entries first
      let walk ← objectsIn (listed.1.getD []) { walk with complete := walk.complete && listed.2 }
      fanoutsIn rest walk

/-- A repository with nothing in it has no directory, and its walk is complete. -/
def objectsOf (ns : Namespace) : Op Walk := do
  let listed ← entries [ns.storedOrg, ns.storedRepo]
  match listed.1 with
  | none => return ⟨[], true⟩
  | some prefixes => fanoutsIn prefixes ⟨[], listed.2⟩

/-! ## Sweeping -/

/-- The repositories of some organisations, but the one being swept. -/
def reposIn (sweeping : Namespace) : List LocalPath → Op (List LocalPath)
  | [] => return []
  | org :: rest =>
      if (org.getLast?.getD []).head? = some '.' then reposIn sweeping rest
      else do
        let repos ← (readDir org).caught
        let out ← reposIn sweeping rest
        match repos with
        | .error _ => return out
        | .ok (repos, _) =>
            return (repos.filter fun repo =>
              repo ≠ [sweeping.storedOrg, sweeping.storedRepo]) ++ out

def otherRepositories (sweeping : Namespace) : Op (List LocalPath) := do
  match ← (readDir []).caught with
  | .error _ => return []
  | .ok (orgs, _) => reposIn sweeping orgs

/-- `age`: zero for a file from the future. -/
def age (m : Files.Metadata) : Op Nat := do
  let now ← (Fallible.certain Files.Req.now : Op Nat)
  return now - m.modified

def linksTo (content : LocalPath) : Op (Option Nat) := do
  match ← (metadata content).caught with
  | .ok shared => return some shared.links
  | .error _ => return none

/-- Does one of the repositories hold the object? -/
def probeEach (oid : Oid) : List LocalPath → Op Bool
  | [] => return false
  | repo :: rest => do
      match ← (metadata (repo ++ [oid.fanout.1, oid.fanout.2, oid.text])).caught with
      | .ok _ => return true
      | .error _ => probeEach oid rest

/-- Is the object still linked from a repository other than the one being swept?  `ours` of
the links belong to that one. -/
def referencedElsewhere (oid : Oid) (elsewhere : List LocalPath) (ours : Nat) : Op Bool := do
  match ← linksTo (contentPath oid) with
  | some links => return 1 + ours < links
  | none => probeEach oid elsewhere

/-- Remove a file that may be gone already. -/
def removeUnlessGone (path : LocalPath) : Op Unit := do
  match ← (removeFile path).caught with
  | .error .notFound => return ()
  | .error e => throw (Error.ofRefused e)
  | .ok () => return ()

/-- The length of the content, or what the repository held if there is none. -/
def sizeOr (content : LocalPath) (held : Nat) : Op Nat := do
  match ← (metadata content).caught with
  | .ok shared => return shared.length
  | .error _ => return held

/-- Remove the content of an object nobody links to. -/
def freeContent (oid : Oid) (held : Nat) (report : SweepReport) : Op SweepReport := do
  let size ← sizeOr (contentPath oid) held
  match ← (removeFile (contentPath oid)).caught with
  | .ok () => return { report with bytes := report.bytes + size }
  | .error _ => return report

/-- `collect`, once the object is counted. -/
def collect (path : LocalPath) (oid : Oid) (held : Nat) (elsewhere : List LocalPath)
    (report : SweepReport) : Op SweepReport :=
  if report.dryRun then do
    if ← referencedElsewhere oid elsewhere 1 then return report
    else return { report with bytes := report.bytes + held }
  else do
    removeUnlessGone path
    if ← referencedElsewhere oid elsewhere 0 then return report
    else freeContent oid held report

/-- The body of the loop of `sweep`. -/
def sweepOne (retained : Finset Oid) (grace : Nat) (elsewhere : List LocalPath) (found : Found)
    (report : SweepReport) : Op SweepReport :=
  if found.oid ∈ retained then return report
  else do
    match ← (metadata found.path).caught with
    | .error .notFound => return report
    | .error e => throw (Error.ofRefused e)
    | .ok m => do
        let age ← age m
        if age < grace then return { report with withinGrace := report.withinGrace + 1 }
        else
          collect found.path found.oid m.length elsewhere { report with swept := report.swept + 1 }

/-- Visit each object. -/
def visitEach {ρ : Type} (visit : Found → ρ → Op ρ) : List Found → ρ → Op ρ
  | [], report => return report
  | found :: rest, report => do
      let report ← visit found report
      visitEach visit rest report

def sweep (ns : Namespace) (retained : Finset Oid) (grace : Nat) (dryRun : Bool) :
    Op SweepReport := do
  let walk ← objectsOf ns
  let elsewhere ← otherRepositories ns
  visitEach (sweepOne retained grace elsewhere) walk.objects
    { swept := 0, bytes := 0, withinGrace := 0, incomplete := !walk.complete, dryRun }

/-! ## Deduplication -/

structure DedupeReport where
  inspected : Nat
  alreadyShared : Nat
  adopted : Nat
  linked : Nat
  reclaimed : Nat
  refused : Nat
  incomplete : Bool
  dryRun : Bool

/-- Do two paths name one file? -/
def sharesBytesWith (path content : LocalPath) : Op Bool := do
  let one ← (metadata path).caught
  let other ← (metadata content).caught
  match one, other with
  | .ok one, .ok other => return one.inode == other.inode
  | _, _ => return false

section

variable {crates : Crates} (sha256 : Bytes → Text) (store : LocalStore crates)

def hashesTo (path : LocalPath) (oid : Oid) : Op Bool := do
  match ← (openFile path).caught with
  | .error _ => return false
  | .ok file =>
      match ← (readAll file).caught with
      | .error _ => return false
      | .ok bytes => return sha256 bytes == oid.text

/-- Put a link to the content in the place of the repository's own file. -/
def adopt (path : LocalPath) (oid : Oid) (size : Nat) (report : DedupeReport) :
    Op DedupeReport :=
  if report.dryRun then
    return { report with linked := report.linked + 1, reclaimed := report.reclaimed + size }
  else do
    if ← hashesTo sha256 (contentPath oid) oid then
      let staged ← stagingPath (parent path) oid
      io (link (contentPath oid) staged)
      io (Files.rename staged path)
      return { report with linked := report.linked + 1, reclaimed := report.reclaimed + size }
    else return { report with refused := report.refused + 1 }

/-- Make the repository's own file the content, and link back to it. -/
def promote (path : LocalPath) (oid : Oid) (report : DedupeReport) : Op DedupeReport :=
  if report.dryRun then return { report with adopted := report.adopted + 1 }
  else do
    if ← hashesTo sha256 path oid then
      io (createDirAll (parent (contentPath oid)))
      io (Files.rename path (contentPath oid))
      match ← (link (contentPath oid) path).caught with
      | .ok () => return { report with adopted := report.adopted + 1 }
      | .error e => do
          io (Files.rename (contentPath oid) path)
          throw (Error.ofRefused e)
    else return { report with refused := report.refused + 1 }

/-- The body of the loop of `dedupe`. -/
def dedupeOne (found : Found) (report : DedupeReport) : Op DedupeReport := do
  let report := { report with inspected := report.inspected + 1 }
  if ← sharesBytesWith found.path (contentPath found.oid) then
    return { report with alreadyShared := report.alreadyShared + 1 }
  else
    match ← (metadata (contentPath found.oid)).caught with
    | .ok shared => adopt sha256 found.path found.oid shared.length report
    | .error _ => promote sha256 found.path found.oid report

def dedupe (ns : Namespace) (dryRun : Bool) : Op DedupeReport := do
  let walk ← objectsOf ns
  visitEach (dedupeOne sha256) walk.objects
    { inspected := 0, alreadyShared := 0, adopted := 0, linked := 0, reclaimed := 0, refused := 0
      incomplete := !walk.complete, dryRun }

/-! ## Compression -/

structure CompressReport where
  inspected : Nat
  compressed : Nat
  already : Nat
  leftAlone : Nat
  refused : Nat
  before : Nat
  after : Nat
  incomplete : Bool
  dryRun : Bool

/-- How much of a file is read at a time. -/
def buffer : Nat := 1024 * 1024

def isFramed (path : LocalPath) (oid : Oid) (onDisk : Nat) : Op Bool := do
  let file ← io (openFile path)
  let opened ← reading file (Framed.open crates onDisk store.keys oid)
  return opened.isSome

/-- Write a container with the bytes of a file: their digest, and its length. -/
def rewrite (path staged : LocalPath) (oid : Oid) (level : Int) : Op (Text × Nat) := do
  let source ← io (openFile path)
  let file ← io (create staged)
  let key ← writingKey store.keys
  let bytes ← io (readAll source)
  let container ←
    Fallible.ofExcept (Writer.write crates (some level) key oid (framesOf buffer bytes))
  io (Files.write file container)
  let compressed ← io (metadata staged)
  return (sha256 bytes, compressed.length)

/-- Put the staged container in the place of the file, and of the shared content if the
file is that. -/
def swapIn (path staged : LocalPath) (oid : Oid) : Op Unit := do
  if ← sharesBytesWith path (contentPath oid) then
    io (Files.rename staged (contentPath oid))
    let relink ← stagingPath (parent path) oid
    io (link (contentPath oid) relink)
    io (Files.rename relink path)
  else io (Files.rename staged path)

/-- Remove the staging file, whatever comes of it. -/
def discard (staged : LocalPath) : Op Unit := do
  let _ ← (removeFile staged).caught
  return ()

/-- The bytes an object takes afterwards, added to the report. -/
def compressObject (path : LocalPath) (oid : Oid) (onDisk : Nat) (level : Int)
    (report : CompressReport) : Op CompressReport := do
  let staged ← stagingPath (parent path) oid
  match ← (store.rewrite sha256 path staged oid level).attempt with
  | .error e => giveUp staged e
  | .ok (digest, compressed) =>
      if digest ≠ oid.text then do
        discard staged
        return { report with refused := report.refused + 1, after := report.after + onDisk }
      else if onDisk ≤ compressed then do
        discard staged
        return { report with leftAlone := report.leftAlone + 1, after := report.after + onDisk }
      else if report.dryRun then do
        discard staged
        return { report with
          compressed := report.compressed + 1, after := report.after + compressed }
      else do
        swapIn path staged oid
        return { report with
          compressed := report.compressed + 1, after := report.after + compressed }

/-- The body of the loop of `compress`. -/
def compressOne (level : Int) (found : Found) (report : CompressReport) : Op CompressReport := do
  let onDisk ← io (metadata found.path)
  let report :=
    { report with inspected := report.inspected + 1, before := report.before + onDisk.length }
  if ← store.isFramed found.path found.oid onDisk.length then
    return { report with already := report.already + 1, after := report.after + onDisk.length }
  else store.compressObject sha256 found.path found.oid onDisk.length level report

def compress (ns : Namespace) (dryRun : Bool) : Op CompressReport :=
  match store.compression with
  | none => throw .compressionDisabled
  | some level => do
      let walk ← objectsOf ns
      visitEach (store.compressOne sha256 level) walk.objects
        { inspected := 0, compressed := 0, already := 0, leftAlone := 0, refused := 0, before := 0
          after := 0, incomplete := !walk.complete, dryRun }

end

end LocalStore

end Lfsx.Storage
