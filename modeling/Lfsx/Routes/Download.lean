import Lfsx.Header
import Lfsx.Routes.Range
import Lfsx.Storage.Remote

/-!
# Downloads

`download` opens an object, reads the `Range` header against its size and streams the part it
asks for.  `download_slice` is the response to a header that asks for a part, for every object
the server keeps and from either place it may be kept.
-/

namespace Lfsx

open Storage Lfsx.Path Request

/-- `content_range`. -/
def contentRange (values : HeaderValues) (start «end» size : Nat) : Text :=
  let text := "bytes ".toList ++ decimal start ++ '-' :: decimal «end» ++ '/' :: decimal size
  if values.fromStr text then text else "bytes */0".toList

/-- A response: its status, its headers and the stream of its body. -/
structure Response where
  status : Nat
  headers : List (String × Text)
  body : Streamed
deriving DecidableEq

/-- `download`, of the object in `held`, for the value of the `Range` header if there is one. -/
def download (values : HeaderValues) (crates : Crates) (place : Place) (held : Bytes)
    (keys : Option (Keyring crates)) (oid : Oid) (value : Option Bytes) :
    Except Error Response := do
  let object ← (Object.open crates held.length keys oid).run (place.reader held)
  let size := object.size
  let range := Range.parse (value.bind values.toStr) size
  if range = .unsatisfiable then
    return { status := 416
             headers := [("content-range", "bytes */".toList ++ decimal size)]
             body := ⟨[], .ok ()⟩ }
  let start := match range with
    | .slice start _ => start
    | _ => 0
  let length := range.length size
  let body ← object.stream crates place held start length
  let headers := [("content-type", "application/octet-stream".toList),
    ("accept-ranges", "bytes".toList), ("content-length", decimal length)]
  match range with
  | .slice start «end» =>
      return { status := 206
               headers := headers ++ [("content-range", contentRange values start «end» size)]
               body }
  | _ => return { status := 200, headers, body }

end Lfsx
