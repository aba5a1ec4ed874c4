import Punix.Kernel.Constants
import Punix.Kernel.Kutils

/-!
Path resolution of `vfs.c`. A `char` array is the list of its bytes, of which
the part before the first NUL is the path. `vfsNormalizePath` rewrites a path
in place: it records the components that survive `.` and `..` as offsets into
the array and then copies them down over the same array.
-/

namespace Punix

def vfsMaxSegments : Nat := 64

/-- `struct segment`: a component as an offset and a length in the path array. -/
structure PathSegment where
  start : Nat
  len : Nat
deriving DecidableEq

/-- `while (i < len && p(path[i])) i++`. -/
def advance (p : UInt8 → Bool) (path : List UInt8) (len i : Nat) : Nat :=
  i + (((path.take len).drop i).takeWhile p).length

/-- What one component does to the recorded segments: `.` is skipped, `..`
drops the last one, anything else is recorded while there is room. -/
def pushSegment (path : List UInt8) (start compLen : Nat) (segs : List PathSegment) :
    List PathSegment :=
  if compLen = 0 then segs
  else if compLen = 1 ∧ path.getD start 0 = dot then segs
  else if compLen = 2 ∧ path.getD start 0 = dot ∧ path.getD (start + 1) 0 = dot then
    segs.dropLast
  else if segs.length < vfsMaxSegments then segs ++ [⟨start, compLen⟩]
  else segs

/-- The scan over the components. Each round moves `i` by at least one byte, so
`fuel = len` rounds reach the end. -/
def scanSegments (path : List UInt8) (len : Nat) :
    Nat → Nat → List PathSegment → List PathSegment
  | 0, _, segs => segs
  | fuel + 1, i, segs =>
      if i < len then
        let start := advance (· = slash) path len i
        let stop := advance (· ≠ slash) path len start
        scanSegments path len fuel stop (pushSegment path start (stop - start) segs)
      else segs

/-- The loop that copies the segments down; `pos` is the write position. The
results at the two `break`s are returned as they stand. -/
def rebuildPath (bufSize : Nat) : List PathSegment → List UInt8 → Nat → List UInt8 × Nat
  | [], path, pos => (path, pos)
  | seg :: rest, path, pos =>
      let full : Bool := asInt bufSize ≤ (pos + seg.len + 1 : Nat)
      let allowed : Int := asInt bufSize - pos - 2
      if full ∧ allowed ≤ 0 then (path, pos)
      else
        let len := if full then allowed.toNat else seg.len
        let path := kMemcpyWithin path pos seg.start len
        let pos := pos + len
        if rest = [] then (path, pos)
        else if asInt bufSize ≤ (pos + 1 : Nat) then (path, pos)
        else rebuildPath bufSize rest (path.set pos slash) (pos + 1)

/-- Shifts the path right by one byte to make room for a leading slash. -/
def shiftRight (path : List UInt8) (len : Nat) : List UInt8 :=
  (List.range (len + 1)).reverse.foldl (fun p i => p.set (i + 1) (p.getD i 0)) path

/-- `vfs_normalize_path(path, buf_size)` on an array of `buf_size` bytes. -/
def vfsNormalizePath (path : List UInt8) (bufSize : Nat) : List UInt8 :=
  if bufSize = 0 then path
  else if path.getD 0 0 = 0 then
    let path := path.set 0 slash
    if bufSize > 1 then path.set 1 0 else path
  else
    let len := kStrlen path
    if path.getD 0 0 ≠ slash ∧ len + 1 ≥ bufSize ∧ bufSize < 2 then path
    else
      -- a leading slash is inserted when there is none
      let path :=
        if path.getD 0 0 ≠ slash then
          (shiftRight path (if len + 1 ≥ bufSize then bufSize - 2 else len)).set 0 slash
        else path
      let len := (asInt (kStrlen path)).toNat
      let segs := scanSegments path len len 0 []
      if segs = [] then
        let path := path.set 0 slash
        if bufSize > 1 then path.set 1 0 else path
      else
        let (path, pos) := rebuildPath bufSize segs (path.set 0 slash) 1
        let pos := if asInt bufSize ≤ pos then (asInt bufSize - 1).toNat else pos
        path.set pos 0

/-- Puts `src` into the array and terminates it, cutting it off if it is too long. -/
def copyTerminated (resolved src : List UInt8) : List UInt8 :=
  (kStrncpy resolved 0 src resolved.length).set (resolved.length - 1) 0

/-- Puts `"/"` into the array. -/
def storeRoot (resolved : List UInt8) : List UInt8 :=
  let resolved' := resolved.set 0 slash
  if resolved.length > 1 then resolved'.set 1 0 else resolved'

/-- `vfs_resolve_path`; `resolved` is the array on entry. -/
def vfsResolvePath (cwd pathname resolved : List UInt8) : List UInt8 :=
  let size := resolved.length
  if size = 0 then resolved
  else if pathname.getD 0 0 = 0 then
    let resolved :=
      if cwd.getD 0 0 ≠ 0 then copyTerminated resolved cwd else storeRoot resolved
    vfsNormalizePath resolved size
  else if pathname.getD 0 0 = slash then
    vfsNormalizePath (copyTerminated resolved pathname) size
  else
    let resolved :=
      if cwd.getD 0 0 ≠ 0 then copyTerminated resolved cwd else storeRoot resolved
    let len := kStrlen resolved
    let resolved := if len = 0 then storeRoot resolved else resolved
    let len := if len = 0 then 1 else len
    -- add a separator if needed
    let sep := len < size - 1 ∧ resolved.getD (len - 1) 0 ≠ slash
    let resolved := if sep then (resolved.set len slash).set (len + 1) 0 else resolved
    let len := if sep then len + 1 else len
    let resolved :=
      if len < size - 1 then (kStrncpy resolved len pathname (size - len)).set (size - 1) 0
      else resolved
    vfsNormalizePath resolved size

example : strBytes (vfsResolvePath (cstr "/proc") (cstr "../bin/./ls/") (List.replicate 64 0)) =
    cstr "/bin/ls" := by decide

end Punix
