import Lfsx.Auth.Budget
import Lfsx.Auth.NamespacesSaved
import Lfsx.Console.AccessConverges
import Lfsx.Console.LetIn
import Lfsx.Console.SessionKept
import Lfsx.Console.TokensLaws
import Lfsx.Locks.Bucket
import Lfsx.Locks.Page
import Lfsx.Locks.Wedged
import Lfsx.Routes.Download
import Lfsx.Routes.Served
import Lfsx.Storage.CacheCount
import Lfsx.Storage.CacheEvicted
import Lfsx.Storage.CacheServed
import Lfsx.Storage.CanonicalFold
import Lfsx.Storage.CodecSealed
import Lfsx.Storage.CollectAgree
import Lfsx.Storage.CollectCrash
import Lfsx.Storage.CollectOrphans
import Lfsx.Storage.CollectRace
import Lfsx.Storage.CollectTogether
import Lfsx.Storage.Isolation
import Lfsx.Storage.KeyspaceAlone
import Lfsx.Storage.LocalReads
import Lfsx.Storage.LocalReport
import Lfsx.Storage.Markers
import Lfsx.Storage.MultipartTiles
import Lfsx.Storage.Places
import Lfsx.Storage.Usage
