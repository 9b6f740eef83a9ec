import Mathlib.Data.List.AList
import GsiIndexing.Go.StrconvLemmas

/-!
# Big values in metakv

`MetakvBigValueSet` stores the JSON text of a value in pieces of at most `METAKV_SIZE_LIMIT`
bytes under the keys `path/0`, `path/1`, …; `MetakvBigValueGet` lists the children of `path/`,
puts every piece at the index its key ends in, and joins them; `MetakvBigValueDel` deletes
everything under `path/`; `MetakvBigValueList` returns the virtual paths that have pieces
under a directory.

metakv itself is the map of keys to values that `cbauth/metakv` keeps: `Set` writes one key,
`RecursiveDelete` drops every key under a prefix and `ListAllChildren` lists the entries under
one. It is modelled as that map, an `AList`, whose calls do not fail. `json.Marshal` and
`json.Unmarshal` are outside the model: `MetakvBigValueSet` takes the marshalled text, and
`MetakvBigValueGet` returns the text it would unmarshal.
-/

namespace Common

open Go

/-! ## The metakv store -/

/-- metakv: a finite map from keys to values. -/
abbrev Store := AList (fun _ : Bytes => Bytes)

namespace Store

/-- `metakv.Set(k, v, nil)`. -/
def set (k v : Bytes) (s : Store) : Store := s.insert k v

/-- `metakv.RecursiveDelete(d)`: every key that starts with `d` is removed. -/
def recursiveDelete (d : Bytes) (s : Store) : Store :=
  ⟨s.entries.filter (fun e => !d.isPrefixOf e.1), s.nodupKeys.sublist List.filter_sublist⟩

/-- `metakv.ListAllChildren(d)`: the entries whose key starts with `d`. -/
def listAllChildren (d : Bytes) (s : Store) : List (Bytes × Bytes) :=
  (s.entries.filter (fun e => d.isPrefixOf e.1)).map (fun e => (e.1, e.2))

end Store

/-! ## The big-value functions -/

/-- `METAKV_SIZE_LIMIT`. -/
def metakvSizeLimit : Nat := 2048

/-- The byte `/`. -/
def slash : UInt8 := 47

/-- Errors of the big-value functions. -/
inductive MetakvError where
  /-- `Empty metakv path` -/
  | emptyPath
  /-- `Unable to identify index for <path>` -/
  | unableToIdentify (path : Bytes)
  /-- the error of `strconv.Atoi` on a piece's index -/
  | numError (e : NumError)
  /-- `raws[index]` with a negative index panics -/
  | panic
  deriving DecidableEq, Repr

/-- `fmt.Sprintf("%v/%v", path, count)`: the key of piece `count`. -/
def piecePath (path : Bytes) (count : Nat) : Bytes := path ++ slash :: itoa count

/-- The path with a `/` after it, as `Get`, `Del` and `List` make it. -/
def withSlash (path : Bytes) : Bytes := if path.getLast? = some slash then path else path ++ [slash]

/-- `strings.LastIndex(s, "/")`, `none` for `-1`. -/
def lastIndexOf (s : Bytes) (b : UInt8) : Option Nat :=
  (s.reverse.idxOf? b).map (fun i => s.length - 1 - i)

/-- The loop of `MetakvBigValueSet`: the next `METAKV_SIZE_LIMIT` bytes under `path/count`. -/
def setLoop (path : Bytes) (count : Nat) (buf : Bytes) (s : Store) : Store :=
  if h : buf.length > 0 then
    let size := min buf.length metakvSizeLimit
    setLoop path (count + 1) (buf.drop size) (s.set (piecePath path count) (buf.take size))
  else s
termination_by buf.length
decreasing_by
  simp only [List.length_drop]
  have : 0 < min buf.length metakvSizeLimit := Nat.lt_min.mpr ⟨h, by decide⟩
  omega

/-- `MetakvBigValueSet(path, v)` with `buf = json.Marshal(v)`; one `/` at the end of the path
is dropped. -/
def metakvBigValueSet (path buf : Bytes) (s : Store) : Except MetakvError Store :=
  if path = [] then .error .emptyPath
  else
    let path := if path.getLast? = some slash then path.dropLast else path
    .ok (setLoop path 0 buf s)

/-- `MetakvBigValueDel(path)`. -/
def metakvBigValueDel (path : Bytes) (s : Store) : Except MetakvError Store :=
  if path = [] then .error .emptyPath else .ok (s.recursiveDelete (withSlash path))

/-- The loop of `MetakvBigValueGet` over the children: each piece at the index its key ends in
(`raws[index] = entry.Value`). `none` where an index is `len(entries)` or more: "the value is
not fully formed". -/
def placePieces (n : Nat) :
    List (Bytes × Bytes) → List (Option Bytes) → Except MetakvError (Option (List (Option Bytes)))
  | [], raws => .ok (some raws)
  | (p, v) :: rest, raws =>
    match lastIndexOf p slash with
    | none => .error (.unableToIdentify p)
    | some loc =>
      if loc = p.length - 1 then .error (.unableToIdentify p)
      else
        match atoi (p.drop (loc + 1)) with
        | (_, some e) => .error (.numError e)
        | (index, none) =>
          if (n : Int) ≤ index then .ok none
          else if index < 0 then .error .panic
          else placePieces n rest (raws.set index.toNat (some v))

/-- `MetakvBigValueGet(path, &v)`: `none` for `(false, nil)`, and the joined pieces, which Go
then unmarshals into `v`. -/
def metakvBigValueGet (path : Bytes) (s : Store) : Except MetakvError (Option Bytes) :=
  if path = [] then .error .emptyPath
  else
    let entries := s.listAllChildren (withSlash path)
    if entries = [] then .ok none
    else
      match placePieces entries.length entries (List.replicate entries.length none) with
      | .error e => .error e
      | .ok none => .ok none
      -- a piece that is still `nil` makes the value "not fully formed" as well
      | .ok (some raws) => .ok ((raws.mapM id).map List.flatten)

/-- `MetakvBigValueList(dirpath)`: the keys under `dirpath/` without their last component, when
that leaves more than `dirpath/`; Go returns them from a map, once each. -/
def metakvBigValueList (dirpath : Bytes) (s : Store) : Except MetakvError (List Bytes) :=
  if dirpath = [] then .error .emptyPath
  else
    let dirpath := withSlash dirpath
    .ok ((s.listAllChildren dirpath).foldl (fun paths e =>
      match lastIndexOf e.1 slash with
      | none => paths
      | some loc =>
        if loc = e.1.length - 1 then paths
        else
          let path := e.1.take loc
          if path.length ≤ dirpath.length then paths else paths.insert path) [])

end Common
