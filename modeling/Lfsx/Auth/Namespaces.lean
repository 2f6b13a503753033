import Lfsx.Namespace

/-!
# Lists of namespaces

An allow-list or a list of restricted repositories: each entry names an organisation and a
repository of it, the repositories that start with something, or all of them.  An entry is
kept in lowercase and matches without regard to case.
-/

namespace Lfsx.Auth

/-- What an entry says of a repository. -/
inductive Repo where
  | any
  | starting (start : Text)
  | exact (name : Text)
deriving DecidableEq

structure Pattern where
  org : Text
  repo : Repo
deriving DecidableEq

abbrev Namespaces := List Pattern

/-- `str::trim` and `str::to_lowercase`, over all of Unicode. -/
structure Unicode where
  trim : Text → Text
  toLowercase : Text → Text

/-- `eq_ignore_ascii_case`. -/
def eqIgnoreAsciiCase (a b : Text) : Bool := lower a == lower b

/-- `entry.split_once('/')`. -/
def splitOnce (entry : Text) : Option (Text × Text) :=
  match entry.span (· != '/') with
  | (org, _ :: repo) => some (org, repo)
  | (_, []) => none

/-- `repo.strip_suffix('*')`. -/
def stripStar (repo : Text) : Option Text :=
  if repo.getLast? = some '*' then some repo.dropLast else none

namespace Pattern

def parse (unicode : Unicode) (entry : Text) : Option Pattern :=
  match splitOnce entry with
  | none => none
  | some (org, repo) =>
      if org.isEmpty || repo.isEmpty then none
      else
        some
          { org := unicode.toLowercase org
            repo := match stripStar repo with
              | some [] => .any
              | some start => .starting (unicode.toLowercase start)
              | none => .exact (unicode.toLowercase repo) }

/-- A name of a repository is ASCII, so lowering it is lowering its letters. -/
def covers (p : Pattern) (ns : Namespace) : Bool :=
  eqIgnoreAsciiCase ns.org p.org &&
    match p.repo with
    | .any => true
    | .starting start => start.isPrefixOf (lower ns.repo)
    | .exact name => eqIgnoreAsciiCase ns.repo name

/-- How an entry is written. -/
def entry (p : Pattern) : Text :=
  match p.repo with
  | .any => p.org ++ "/*".toList
  | .starting start => p.org ++ '/' :: (start ++ ['*'])
  | .exact name => p.org ++ '/' :: name

end Pattern

namespace Namespaces

def covers (all : Namespaces) (ns : Namespace) : Bool := all.any fun pattern => pattern.covers ns

/-- What the entries say, or those that cannot be read. -/
def fromEntries (unicode : Unicode) (entries : List Text) : Except (List Text) Namespaces :=
  let named := (entries.map unicode.trim).filter fun entry => !entry.isEmpty
  let unreadable := named.filter fun entry => (Pattern.parse unicode entry).isNone
  if unreadable.isEmpty then .ok (named.filterMap (Pattern.parse unicode)) else .error unreadable

end Namespaces

end Lfsx.Auth
